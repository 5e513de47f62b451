import VerilogLayout.Text.Basic

/-!
# Keywords of declarations

The lexemes that declarations are told apart by. They are compared as they stand, since the
keywords of Verilog are in lower case.
-/

namespace VerilogLayout.Keyword

/-- The words for the type of a net. -/
def netTypes : List Text :=
  ["wire", "reg", "tri", "tri0", "tri1", "triand", "trior", "trireg", "wand", "wor", "supply0",
    "supply1", "uwire", "logic"]

/-- The words for the type of a variable. -/
def variableTypes : List Text :=
  ["integer", "real", "realtime", "time", "genvar"]

/-- The words for the sign of a vector. -/
def signings : List Text :=
  ["signed", "unsigned"]

/-- The words that may stand between the first word and the names of a declaration. -/
def modifiers : List Text :=
  netTypes ++ variableTypes ++ (["vectored", "scalared"] : List Text)

end VerilogLayout.Keyword

import VerilogLayout.Text.Basic

/-!
# Reports

A `Report` is an error as its reader meets it: a message, the place it is about, a code and a
hint. `Report.format` puts these on one line and leaves out what is missing. The modules that can
fail have error types of their own; a report is what such an error says.
-/

namespace VerilogLayout

/-- Where an error is, as far as it is known. -/
structure Location where
  path : Option Text := none
  line : Option Int := none
  column : Option Int := none
deriving DecidableEq, Repr

namespace Location

/-- The text of an unknown place. -/
def unknown : Text := "unknown location"

/-- The place in words: a column counts only behind a line, and a line behind a path. -/
def describe (location : Location) : Text :=
  let path := location.path.getD []
  if path.isEmpty then
    unknown
  else
    match location.line, location.column with
    | some line, some column => path ++ ":" ++ Text.ofInt line ++ ":" ++ Text.ofInt column
    | some line, none => path ++ ":" ++ Text.ofInt line
    | none, _ => path

end Location

/-- What an error is about. -/
inductive Topic where
  | general
  | treeReading
  | treeMaking
  | settings
  | template
deriving DecidableEq, Repr

namespace Topic

/-- The code of a topic. -/
def code? : Topic → Option Text
  | .general => none
  | .treeReading => some "TREE_LOAD"
  | .treeMaking => some "TREE_GENERATION"
  | .settings => some "ALIGN_CONFIG"
  | .template => some "INSTANCE_TEMPLATE"

/-- `concernsTree t` holds if the formatter can do without what failed: the tree. -/
def concernsTree : Topic → Bool
  | .treeReading | .treeMaking => true
  | .general | .settings | .template => false

end Topic

/-- An error as it is shown. -/
structure Report where
  topic : Topic
  message : Text
  location : Location := {}
  /-- A code that replaces the topic's own. -/
  ownCode : Option Text := none
  hint : Option Text := none
deriving DecidableEq, Repr

namespace Report

/-- The code of an error. -/
def code? (report : Report) : Option Text :=
  report.ownCode <|> report.topic.code?

/-- The error on one line: message, place and code in parentheses, hint. -/
def format (report : Report) : Text :=
  let place := report.location.describe
  let details :=
    (if place = Location.unknown then [] else [place]) ++
      (report.code?.toList.filter fun code => !code.isEmpty)
  let message :=
    if details.isEmpty then report.message
    else report.message ++ " (" ++ List.intercalate "; " details ++ ")"
  let hint :=
    match report.hint with
    | some hint => if hint.isEmpty then [] else "Hint: " ++ hint
    | none => []
  List.intercalate " " ([message, hint].filter fun part => !part.isEmpty)

end Report
end VerilogLayout

import VerilogLayout.Tree.Node

/-!
# The spacing of a token

Every token brings its own spaces along. Punctuation has none, assignments and the parts of a
conditional expression have one on both sides, and so has an operator between two operands; in
front of an operand or as an event an operator stands alone. `Lexeme.spaced` is the whole rule.
-/

namespace VerilogLayout.Lexeme

/-- The lexeme of the end of the file, which is written as nothing. -/
def endOfFile : Text := "<EOF>"

/-- Operators that may stand between two operands. -/
def binary : List Text :=
  ["+", "-", "*", "/", "%", "**", "==", "!=", "===", "!==", "&&", "||", "<", ">", ">=", "<<", ">>",
    "<<<", ">>>", "&", "|", "^", "^~", "~^"]

/-- Operators that only stand in front of an operand. -/
def unary : List Text :=
  ["!", "~", "~&", "~|"]

/-- Lexemes that are written without spaces. -/
def bare : List Text :=
  [",", ";", ".", "#", "@", "(", ")", "[", "]", "\x7b", "\x7d", "'"]

/-- The names of the tokens that are written in one way whatever their lexeme. -/
def fixed : List (Text × Text) :=
  [("EOF", ""), ("COMMA", ","), ("SEMI", ";"), ("DOT", "."), ("HASH", "#"), ("AT", "@"),
    ("LPAREN", "("), ("RPAREN", ")"), ("LBRACK", "["), ("RBRACK", "]"), ("LBRACE", "\x7b"),
    ("RBRACE", "\x7d")]

/-- The writing of a token by its name alone. -/
def byName? (name : Text) : Option Text :=
  fixed.lookup name

/-- Writings by name are those of the table. -/
theorem mem_fixed_of_byName? {name text : Text} (h : byName? name = some text) :
    (name, text) ∈ fixed := by
  obtain ⟨front, back, heq, -⟩ := List.lookup_eq_some_iff.1 h
  rw [heq]
  exact List.mem_append_right front List.mem_cons_self

/-- The lexeme with a space on both sides. -/
def surrounded (lexeme : Text) : Text :=
  " " ++ lexeme ++ " "

/-- Where a token stands: the name of its parent, whether it comes first there, and whether a colon
separates the bounds of a range there. -/
structure Place where
  parent : Option Text := none
  isFirst : Bool := true
  inRange : Bool := false
deriving DecidableEq, Repr

/-- An operator between two operands has spaces. -/
def spacedOperator (place : Place) (lexeme : Text) : Text :=
  if place.parent = some ("unary_operator" : Text) then lexeme
  else if place.parent = some ("binary_operator" : Text) then surrounded lexeme
  else if place.isFirst then lexeme
  else surrounded lexeme

/-- The token named `name` with its spaces. -/
def spaced (place : Place) (name : Text) (lexeme : Text) : Text :=
  if lexeme = endOfFile then
    ""
  else
    match byName? name with
    | some text => text
    | none =>
        if bare.contains lexeme || unary.contains lexeme then lexeme
        else if lexeme = ("?" : Text) then surrounded lexeme
        else if lexeme = (":" : Text) then if place.inRange then lexeme else surrounded lexeme
        else if lexeme = ("=" : Text) ∨ lexeme = ("<=" : Text) then surrounded lexeme
        else if lexeme = ("*" : Text) ∧ place.parent = some ("event_control" : Text) then lexeme
        else if binary.contains lexeme then spacedOperator place lexeme
        else lexeme

end VerilogLayout.Lexeme

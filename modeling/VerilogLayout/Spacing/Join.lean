import VerilogLayout.Text.Blank
import VerilogLayout.Text.Word

/-!
# Joining pieces of code

Two pieces of code may touch unless both are words there: `needsSpace` looks at the last character
of the one and at the first character of the other that is no blank. `joinPieces` glues pieces from
left to right with a space where one is needed and nowhere else.
-/

namespace VerilogLayout.Spacing

/-- A word ends in front and a word follows. -/
def needsSpace (front piece : Text) : Bool :=
  front.getLast?.any Text.isWord && (Text.trimLeft piece).head?.any Text.isWord

/-- The text with one more piece. -/
def glue (front piece : Text) : Text :=
  if needsSpace front piece then front ++ " " ++ piece else front ++ piece

/-- The pieces with a space between two words. -/
def joinPieces (pieces : List Text) : Text :=
  pieces.foldl glue []

@[simp]
theorem glue_nil (front : Text) : glue front [] = front := by
  simp [glue, needsSpace, Text.trimLeft]

@[simp]
theorem nil_glue (piece : Text) : glue [] piece = piece := by
  simp [glue, needsSpace]

end VerilogLayout.Spacing

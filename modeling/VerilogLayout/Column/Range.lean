import VerilogLayout.Column.Setting
import VerilogLayout.Text.Blank
import VerilogLayout.Text.Bracket

/-!
# Ranges

A range `[m:l]` is written with the upper bound flush right and the lower bound flush left in
fields of set widths. `Range.split?` takes a range apart at its only colon outside of brackets; a
part-select such as `[base +: width]` is no range. Everything else stays as it is.
-/

namespace VerilogLayout.Range

/-- A range with its bounds in fields of the given widths. -/
def format (upper lower : Text) (upperWidth lowerWidth : Nat) : Text :=
  "[" ++ Text.padLeft upperWidth (Text.trim upper) ++ ":" ++
    Text.padRight lowerWidth (Text.trim lower) ++ "]"

/-- The text inside of square brackets at both ends. -/
def inside? (s : Text) : Option Text :=
  match s with
  | '[' :: rest => if rest.getLast? = some (.char ']') then some rest.dropLast else none
  | _ => none

/-- The bounds of a range. -/
def split? (s : Text) : Option (Text × Text) := do
  let body ← inside? (Text.trim s)
  match Bracket.topLevelParts ':' 0 body with
  | [upper, lower] =>
      let upper := Text.trim upper
      let lower := Text.trim lower
      if upper.isEmpty || lower.isEmpty || Text.endsWith upper "+" || Text.endsWith upper "-" then
        none
      else
        some (upper, lower)
  | _ => none

/-- A range with its bounds in their fields; any other text without the blanks around it. -/
def normalise (columns : Columns) (s : Text) : Text :=
  match split? s with
  | some (upper, lower) => format upper lower (columns .upperWidth) (columns .lowerWidth)
  | none => Text.trim s

end VerilogLayout.Range

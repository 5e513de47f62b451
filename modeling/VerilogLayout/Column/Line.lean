import VerilogLayout.Text.Basic

/-!
# Lines with columns

A `Line` grows to the right. `Line.place` puts a field at its target column or, if the line already
reaches past it, behind a smallest gap; text is never removed, so all later fields move right
together. `column_append` says where a line stands.
-/

namespace VerilogLayout

/-- The number of columns of one level of indentation. -/
def indentWidth : Nat := 4

/-- The number of spaces from one column to another that is not before it. -/
def pad (current target : Int) : Nat :=
  (target - current).toNat

/-- The indentation of a level. -/
def indentFor (level : Int) : Text :=
  Text.spaces (indentWidth * level.toNat)

/-- The columns by which a construct moves right that is nested deeper than its natural level. -/
def columnShift (level : Int) (natural : Int := 1) : Nat :=
  (level - natural).toNat * indentWidth

/-- A line from its start column on. -/
structure Line where
  start : Int := 0
  text : Text := []
deriving DecidableEq, Repr

namespace Line

/-- The column behind the line. -/
def column (line : Line) : Int :=
  line.start + line.text.length

/-- The line with a text behind it. -/
def append (line : Line) (text : Text) : Line :=
  { line with text := line.text ++ text }

/-- The line with a field at its target column, or `gap` columns behind its end if it is longer.
An empty line needs no gap. -/
def place (line : Line) (field : Text) (target : Int) (gap : Int := 1) : Line :=
  if field.isEmpty then
    line
  else
    let least := if line.text.isEmpty then 0 else gap.toNat
    line.append (Text.spaces (max least (pad line.column target)) ++ field)

@[simp]
theorem start_append (line : Line) (text : Text) : (line.append text).start = line.start :=
  rfl

@[simp]
theorem column_append (line : Line) (text : Text) :
    (line.append text).column = line.column + text.length := by
  simp [column, append, Int.add_assoc]

end Line
end VerilogLayout

import VerilogLayout.Column.Line
import VerilogLayout.Column.Setting

/-!
# Aligned lines

One function for each form of line: ports, signals, parameters, continuous assignments and
connections. Each places its fields at the columns that are set, moved right by `shift` for a
deeper level. The trees' renderer and the line aligner both end here, so they share one table.
-/

namespace VerilogLayout

/-- The fields of a declaration in the order in which they are written. -/
structure Declaration where
  keyword : Text
  modifiers : Text := []
  signing : Text := []
  range : Text := []
  names : Text := []
  dimensions : Text := []
  terminator : Text := []
deriving DecidableEq, Repr

namespace Layout

/-- Words behind the last field, after a space. -/
def appendWord (line : Line) (word : Text) : Line :=
  if word.isEmpty then line else line.append (" " ++ word)

/-- A semicolon goes to its column; any other terminator follows directly. -/
def placeTerminator (line : Line) (terminator : Text) (column : Int) : Line :=
  if terminator = (";" : Text) then line.place terminator column 0 else line.append terminator

/-- The declaration of ports. -/
def port (columns : Columns) (fields : Declaration) (start shift : Int) : Text :=
  let line : Line := { start }
  let line := line.place fields.keyword (columns .portKeyword + shift)
  let line := appendWord line fields.modifiers
  let line := line.place fields.signing (columns .portSigning + shift)
  let line := line.place fields.range (columns .portRange + shift)
  let line := line.place fields.names (columns .portName + shift)
  (placeTerminator line fields.terminator (columns .portEnd + shift)).text

/-- The declaration of one array. -/
def array (columns : Columns) (fields : Declaration) (start shift : Int) : Text :=
  let line : Line := { start }
  let line := line.place fields.keyword (columns .arrayKeyword + shift)
  let line := appendWord line fields.modifiers
  let line := line.place fields.signing (columns .arraySigning + shift)
  let line := line.place fields.range (columns .arrayRange + shift)
  let line := line.place fields.names (columns .arrayName + shift)
  let line := line.place fields.dimensions (columns .arrayDimensions + shift)
  (placeTerminator line fields.terminator (columns .arrayEnd + shift)).text

/-- The declaration of signals without dimensions. -/
def scalar (columns : Columns) (fields : Declaration) (start shift : Int) : Text :=
  let line : Line := { start }
  let line := line.place fields.keyword (columns .signalKeyword + shift)
  let line := appendWord line fields.modifiers
  let line := line.place fields.signing (columns .signalSigning + shift)
  let line := line.place fields.range (columns .signalRange + shift)
  let line := line.place fields.names (columns .signalName + shift)
  (placeTerminator line fields.terminator (columns .signalEnd + shift)).text

/-- The declaration of signals. -/
def signal (columns : Columns) (fields : Declaration) (start shift : Int) : Text :=
  if fields.dimensions.isEmpty then
    scalar columns fields start shift
  else
    array columns fields start shift

/-- One parameter; without a keyword it continues the line above. -/
structure Parameter where
  keyword : Text
  modifiers : Text := []
  name : Text
  value : Text
  terminator : Text := []
deriving DecidableEq, Repr

/-- The declaration of a parameter. -/
def parameter (columns : Columns) (fields : Parameter) (start shift : Int) : Text :=
  let line : Line := { start }
  let line := line.place fields.keyword (columns .parameterKeyword + shift)
  let line := appendWord line fields.modifiers
  let line := line.place fields.name (columns .parameterName + shift)
  let line :=
    if fields.value.isEmpty then line
    else (line.place "=" (columns .parameterEquals + shift)).append (" " ++ fields.value)
  (placeTerminator line fields.terminator (columns .parameterEnd + shift)).text

/-- The column of the first equals sign of an assignment. -/
def equalsColumn (columns : Columns) (shift : Int) : Int :=
  if columns .assignEquals = 0 then 0 else columns .assignEquals + shift

/-- A continuous assignment: targets with their values. -/
def assign (columns : Columns) (pairs : List (Text × Text)) (terminator : Text)
    (start shift : Int) : Text :=
  let line : Line := { start }
  let line := line.place "assign" (columns .assignKeyword + shift)
  let line :=
    match pairs with
    | [] => line
    | (target, value) :: others =>
        let line := line.place target (columns .assignTarget + shift)
        let line := line.place "=" (equalsColumn columns shift)
        let line := line.append (" " ++ value)
        others.foldl (fun line (target, value) => line.append (", " ++ target ++ " = " ++ value))
          line
  (line.append terminator).text

/-- A connection: the name, and the value in parentheses at its column. -/
def connection (name value : Text) (column : Int) (terminator : Text) (start : Int) : Text :=
  let line : Line := { start }
  let line := line.append ("." ++ name)
  let line := line.place ("(" ++ value ++ ")") column
  (line.append terminator).text

end Layout
end VerilogLayout

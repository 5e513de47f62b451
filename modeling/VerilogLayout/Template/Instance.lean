import VerilogLayout.Column.Layout
import VerilogLayout.Template.Header

/-!
# Templates of instances

An instance of a module connects every port to a signal of the port's name and gives every
parameter its standard value. `ModuleHeader.template` writes one with the columns of connections;
`connectionLines` puts one connection on a line and a comma behind all but the last.
-/

namespace VerilogLayout

namespace Template

/-- The column at which the connections of a template start. -/
def start : Nat :=
  indentWidth

/-- One line for each connection of a name and a value, with the values at `column`. -/
def connectionLines (column : Nat) : List (Text × Text) → List Text
  | [] => []
  | (name, value) :: rest =>
      let terminator : Text := if rest.isEmpty then [] else ","
      (indentFor 1 ++ Layout.connection name value column terminator start) ::
        connectionLines column rest

end Template

namespace ModuleHeader

/-- The lines of an instance of the module. -/
def instanceLines (columns : Columns) (header : ModuleHeader) (instanceName : Text) : List Text :=
  let (front, opening) : List Text × Text :=
    if header.parameters.isEmpty then
      ([], header.name ++ " " ++ instanceName ++ " (")
    else
      ((header.name ++ " #(") ::
          Template.connectionLines (columns .parameterValue) header.parameters,
        ") " ++ instanceName ++ " (")
  let ports := header.ports.map fun port => (port, port)
  if ports.isEmpty then
    front ++ [opening ++ ");"]
  else
    front ++ [opening] ++ Template.connectionLines (columns .portValue) ports ++ [(");" : Text)]

/-- The name of an instance that is given none. -/
def instanceName (header : ModuleHeader) : Text :=
  "UUT_" ++ header.name

/-- An instance of the module, in a block comment if `commented` says so. An empty name is
none. -/
def template (columns : Columns) (header : ModuleHeader) (name : Option Text)
    (commented : Bool) : Text :=
  let name := (name.filter fun name => !name.isEmpty).getD header.instanceName
  let lines := header.instanceLines columns name
  let lines := if commented then (("/*" : Text) :: lines) ++ [("*/" : Text)] else lines
  List.intercalate "\n" lines ++ "\n"

end ModuleHeader

/-- An instance of the first module of a source text. -/
def instanceOf? (columns : Columns) (source : Text) (name : Option Text) (commented : Bool) :
    Except HeaderError Text :=
  (ModuleHeader.ofSource? source).map fun header => header.template columns name commented

end VerilogLayout

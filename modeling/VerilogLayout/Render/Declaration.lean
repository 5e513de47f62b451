import VerilogLayout.Column.Layout
import VerilogLayout.Column.Range
import VerilogLayout.Render.Basic
import VerilogLayout.Tree.Keyword

/-!
# Declarations

Ports, signals, parameters and continuous assignments are taken apart into the fields of a line
and laid out at their columns, with their comments behind. What fits no column is written as it
stands.
-/

namespace VerilogLayout.Render

open Node

/-- A phrase between the keyword and the names of a declaration: a type, a strength or a delay. -/
def isModifierPhrase (node : Node) : Bool :=
  !node.isToken &&
    (node.is Kind.isModifier || Text.includes node.name "strength" ||
      Text.includes node.name "delay")

/-- What stands between the keyword and the names of a declaration. -/
structure Qualifiers where
  modifiers : List Text := []
  signing : Text := []
  range : Text := []
deriving DecidableEq, Repr

/-- The qualifiers in front of the names of a declaration, and the nodes from the names on. Only
the first range is a qualifier. -/
def splitQualifiers (columns : Columns) (seen : Qualifiers) : List Node → Qualifiers × List Node
  | [] => (seen, [])
  | node :: rest =>
      if node.isToken && Keyword.signings.contains node.lexeme then
        splitQualifiers columns { seen with signing := node.lexeme } rest
      else if node.isToken && Keyword.modifiers.contains node.lexeme then
        splitQualifiers columns { seen with modifiers := seen.modifiers ++ [node.lexeme] } rest
      else if node.kind? = some .range ∧ seen.range.isEmpty then
        splitQualifiers columns { seen with range := Range.normalise columns node.text } rest
      else if isModifierPhrase node then
        splitQualifiers columns { seen with modifiers := seen.modifiers ++ [node.text] } rest
      else
        (seen, node :: rest)

/-- The declared items, those of identifier lists among them. -/
def declaredItems (nodes : List Node) : List Node :=
  nodes.flatMap fun node => if node.is Kind.isIdentifierList then node.children else [node]

/-- The parts of one declared name: the children of a phrase that holds a dimension, or the nodes
as they are. -/
def nameParts (nodes : List Node) : List Node :=
  if (opened nodes).any (·.is Kind.isDimension) then opened nodes else nodes

/-- The name and the dimensions of an array, if the nodes declare one: its first dimension stands
behind the first node that equals its last name. -/
def arrayParts? (columns : Columns) (nodes : List Node) : Option (Text × Text) := do
  let parts := nameParts nodes
  let names := parts.filter fun part => !part.is Kind.isDimension
  let dimensions := parts.filter (·.is Kind.isDimension)
  let lastName ← names.getLast?
  let firstDimension ← dimensions.head?
  if parts.idxOf lastName < parts.idxOf firstDimension then
    some (joinedText names, dimensions.flatMap fun part => Range.normalise columns part.text)
  else
    none

/-- The names of a declaration and, for a single array, its dimensions. -/
def nameFields (columns : Columns) (nodes : List Node) : Text × Text :=
  let runs := (groups "," (declaredItems nodes)).map Group.items
  let names := List.intercalate ", " (runs.map joinedText)
  match runs with
  | [run] => (arrayParts? columns run).getD (names, [])
  | _ => (names, [])

/-- The fields of a declaration of ports or signals, and its terminator. -/
def declarationFields (columns : Columns) (node : Node) (given : Option Node) :
    Declaration × Option Node :=
  let (children, terminator) := splitTerminator node.children given
  let (qualifiers, named) := splitQualifiers columns {} (children.drop 1)
  let (names, dimensions) := nameFields columns named
  let fields : Declaration :=
    { keyword := ((children.head?).map text).getD []
      modifiers := List.intercalate " " qualifiers.modifiers
      signing := qualifiers.signing
      range := qualifiers.range
      names
      dimensions
      terminator := terminatorText terminator }
  (fields, terminator)

/-- The declaration of ports. -/
def portDeclaration (columns : Columns) (node : Node) (level : Int) (given : Option Node) :
    Render Text := do
  let (fields, terminator) := declarationFields columns node given
  let line := Layout.port columns fields (level * indentWidth) (columnShift level)
  pure (line ++ (← endOfLine level (node :: terminator.toList)))

/-- The declaration of signals. -/
def signalDeclaration (columns : Columns) (node : Node) (level : Int) (given : Option Node) :
    Render Text := do
  let (fields, terminator) := declarationFields columns node given
  let line := Layout.signal columns fields (level * indentWidth) (columnShift level)
  pure (line ++ (← endOfLine level (node :: terminator.toList)))

/-- The target and the value on the two sides of the first equals sign. -/
def sides? (nodes : List Node) : Option (Text × Text) :=
  (indexOf? "=" nodes).map fun i => (joinedText (nodes.take i), joinedText (nodes.drop (i + 1)))

/-- The name and the value of a parameter, which is empty without an equals sign. -/
def parameterParts (nodes : List Node) : Text × Text :=
  (sides? (opened nodes)).getD (joinedText (opened nodes), [])

/-- The parts of a parameter declaration behind its keyword. -/
structure ParameterParts where
  modifiers : List Text := []
  /-- The nodes of the modifiers. -/
  head : List Node := []
  assignments : List Group := []
deriving Repr

/-- A parameter declaration with one more child. -/
def ParameterParts.add (columns : Columns) (parts : ParameterParts) (node : Node) :
    ParameterParts :=
  match node.kind? with
  | some .listOfParamAssignments =>
      { parts with assignments := parts.assignments ++ groups "," node.children }
  | some .paramAssignment =>
      { parts with assignments := parts.assignments ++ [{ items := [node] }] }
  | some .range =>
      { parts with
        modifiers := parts.modifiers ++ [Range.normalise columns node.text]
        head := parts.head ++ [node] }
  | _ =>
      { parts with
        modifiers := parts.modifiers ++ [node.text]
        head := parts.head ++ [node] }

/-- The lines of the parameters behind the first, one level deeper. -/
def parameterLines (columns : Columns) (level : Int) (terminator : Option Node) :
    List Group → Render (List Text)
  | [] => pure []
  | group :: rest => do
      let isLast := rest.isEmpty
      let (name, value) := parameterParts group.items
      let line := Layout.parameter columns
        { keyword := []
          name
          value
          terminator := if isLast then terminatorText terminator else "," }
        ((level + 1) * indentWidth) (columnShift level)
      let comments ← endOfLine (level + 1)
        (group.items ++ group.separator.toList ++ (if isLast then terminator.toList else []))
      let lines ← parameterLines columns level terminator rest
      pure ((indentFor (level + 1) ++ line ++ comments) :: lines)

/-- The declaration of parameters. -/
def parameterDeclaration (columns : Columns) (node : Node) (level : Int) (given : Option Node) :
    Render Text := do
  let (children, terminator) := splitTerminator node.children given
  match children with
  | [] => woven node
  | keyword :: others =>
      let parts := others.foldl (ParameterParts.add columns) {}
      match parts.assignments with
      | [] => woven node
      | first :: rest =>
          let isLast := rest.isEmpty
          let (name, value) := parameterParts first.items
          let line := Layout.parameter columns
            { keyword := keyword.text
              modifiers := List.intercalate " " parts.modifiers
              name
              value
              terminator := if isLast then terminatorText terminator else "," }
            (level * indentWidth) (columnShift level)
          let comments ← endOfLine level
            (keyword :: parts.head ++ first.items ++ first.separator.toList ++
              (if isLast then terminator.toList else []))
          let lines ← parameterLines columns level terminator rest
          pure (List.intercalate "\n" ((line ++ comments) :: lines))

/-- A continuous assignment without columns. -/
def verbatimAssign (children : List Node) (level : Int) (terminator : Option Node) :
    Render Text := do
  let keyword ← require children.head?
  let parts := [keyword.text, spacedText (children.drop 1)].filter fun part => !part.isEmpty
  let comments ← endOfLine level (children ++ terminator.toList)
  pure (List.intercalate " " parts ++ terminatorText terminator ++ comments)

/-- The targets and values of a continuous assignment that consists of its keyword and one list of
assignments. -/
def assignPairs? (children : List Node) : Option (List (Text × Text)) :=
  match children with
  | [_, assignments] =>
      if assignments.kind? = some .listOfNetAssignments then
        (groups "," assignments.children).mapM fun group => sides? (opened group.items)
      else
        none
  | _ => none

/-- A continuous assignment; one with a strength or a delay has no columns. -/
def continuousAssign (columns : Columns) (node : Node) (level : Int) (given : Option Node) :
    Render Text := do
  let (children, terminator) := splitTerminator node.children given
  match assignPairs? children with
  | none => verbatimAssign children level terminator
  | some pairs =>
      let line := Layout.assign columns pairs (terminatorText terminator) (level * indentWidth)
        (columnShift level)
      pure (line ++ (← endOfLine level (node :: terminator.toList)))

end VerilogLayout.Render

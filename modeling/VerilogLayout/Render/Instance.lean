import VerilogLayout.Column.Layout
import VerilogLayout.Render.Basic

/-!
# Instances

An instance of a module is written with one connection to a line. Connections belong to the second
level, and the column of their values moves right with every deeper one. Comments that find no
place on a line wait as `pending` nodes for the end of the next line.
-/

namespace VerilogLayout.Render

open Node

/-- The name and the value of a connection by name; without parentheses there is no value. -/
def namedParts (node : Node) : Text × Text :=
  let children := node.children
  let start := through (indexOf? "." children)
  match indexOf? "(" children with
  | none => (joinedText (children.drop start), [])
  | some opening =>
      let closes := (children.getLast?).any (isLexeme ")")
      let stop := if closes then children.length - 1 else children.length
      (joinedText (between children start opening),
        joinedText (between children (opening + 1) stop))

/-- One line for each connection, with its comma. -/
def connectionLines (level : Int) (column : Int) : List Group → Render Text
  | [] => pure []
  | group :: rest =>
      match group.items with
      | [] => connectionLines level column rest
      -- Only a named connection that stands alone between its commas is laid out in columns.
      | item :: others => do
          let comma : Text := if group.separator.isSome then "," else ""
          let body :=
            if others.isEmpty && item.is Kind.isNamedConnection then
              let (name, value) := namedParts item
              Layout.connection name value (column + columnShift level 2) comma
                (level * indentWidth)
            else
              joinedText group.items ++ comma
          let comments ← endOfLine level (group.items ++ group.separator.toList)
          let lines ← connectionLines level column rest
          pure (indentFor level ++ body ++ comments ++ "\n" ++ lines)

/-- The nodes with the children of a list in its place. -/
def flattenLists (list : Kind) (nodes : List Node) : List Node :=
  nodes.flatMap fun node => if node.kind? = some list then node.children else [node]

/-- The parameter values of an instance, and the nodes whose comments are pending. -/
def parameterBlock (columns : Columns) (node : Node) (level : Int) (pending : List Node) :
    Render (Text × List Node) := do
  let children := node.children
  match indexOf? "(" children with
  | none => pure ("#" ++ joinedText (children.drop 1), pending ++ [node])
  | some opening =>
      let inner := between children (opening + 1) (children.length - 1)
      let comments ← endOfLine level (pending ++ children.take (opening + 1))
      let lines ← connectionLines (level + 1) (columns .parameterValue)
        (groups "," (flattenLists .listOfParameterAssignments inner))
      pure ("#(" ++ comments ++ "\n" ++ lines ++ indentFor level ++ ")", children.getLast?.toList)

/-- One instance with its connections, and the nodes whose comments are pending. -/
def instanceBlock (columns : Columns) (node : Node) (level : Int) (pending : List Node) :
    Render (Text × List Node) := do
  let children := node.children
  match indexOf? "(" children with
  | none => pure (joinedText children, pending ++ [node])
  | some opening =>
      let name := joinedText (children.take opening)
      let connections := flattenLists .listOfPortConnections
        (between children (opening + 1) (children.length - 1))
      if connections.isEmpty then
        pure (name ++ " ()", pending ++ children)
      else
        let comments ← endOfLine level (pending ++ children.take (opening + 1))
        let lines ← connectionLines (level + 1) (columns .portValue) (groups "," connections)
        pure (name ++ " (" ++ comments ++ "\n" ++ lines ++ indentFor level ++ ")",
          children.getLast?.toList)

/-- An instantiation up to its instances: the text, the pending nodes and the instances, each with
the comma behind it. -/
structure Instantiation where
  text : Text
  pending : List Node
  instances : List (Node × Option Node) := []

/-- Gives the last instance its comma. -/
def setComma (comma : Node) (instances : List (Node × Option Node)) : List (Node × Option Node) :=
  match instances.getLast? with
  | some (node, _) => instances.dropLast ++ [(node, some comma)]
  | none => instances

/-- An instantiation with the children behind the name of the module. -/
def readInstantiation (columns : Columns) (level : Int) (done : Instantiation) :
    List Node → Render Instantiation
  | [] => pure done
  | node :: rest => do
      match node.kind? with
      | some .parameterValueAssignment =>
          let (block, pending) ← parameterBlock columns node level done.pending
          readInstantiation columns level
            { done with text := done.text ++ " " ++ block, pending } rest
      | some .moduleInstance =>
          readInstantiation columns level
            { done with instances := done.instances ++ [(node, none)] } rest
      | _ =>
          -- A comma in front of all instances belongs to the text like any other token.
          if node.isLexeme "," && !done.instances.isEmpty then
            readInstantiation columns level
              { done with instances := setComma node done.instances } rest
          else
            readInstantiation columns level
              { done with
                text := done.text ++ " " ++ node.text
                pending := done.pending ++ [node] }
              rest

/-- The instances one behind the other, and the nodes whose comments are pending. -/
def instanceLines (columns : Columns) (level : Int) (isFirst : Bool) (pending : List Node) :
    List (Node × Option Node) → Render (Text × List Node)
  | [] => pure ([], pending)
  | (node, comma?) :: rest => do
      let gap : Text := if isFirst then " " else indentFor level
      let (body, pending) ← instanceBlock columns node level pending
      match comma? with
      | some comma =>
          let comments ← endOfLine level (pending ++ [comma])
          let (lines, pending) ← instanceLines columns level false [] rest
          pure (gap ++ body ++ "," ++ comments ++ "\n" ++ lines, pending)
      | none =>
          let (lines, pending) ← instanceLines columns level false pending rest
          pure (gap ++ body ++ lines, pending)

/-- An instantiation of a module. -/
def moduleInstantiation (columns : Columns) (node : Node) (level : Int) (given : Option Node) :
    Render Text := do
  let (children, terminator) := splitTerminator node.children given
  match children with
  | [] => woven node
  | name :: others =>
      let parts ← readInstantiation columns level { text := name.text, pending := [name] } others
      let (lines, pending) ← instanceLines columns level true parts.pending parts.instances
      let comments ← endOfLine level (pending ++ terminator.toList)
      pure (parts.text ++ lines ++ terminatorText terminator ++ comments)

end VerilogLayout.Render

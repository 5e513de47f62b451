import VerilogLayout.Render.Basic

/-!
# Modules and regions

A module is written with its parameters and its ports one to a line and its items one level
deeper; generate regions, functions and tasks have a head line, items and a closing keyword. The
list of ports or parameters leaves its closing parenthesis as an `Open` line, which the rest of
the head is written on.
-/

namespace VerilogLayout.Render

open Node

/-- Descriptions one behind the other, with an empty line in front of every module but the first
description. -/
def sourceText (format : Formatter) (level : Int) (isFirst : Bool) : List Node → Render Text
  | [] => pure []
  | node :: rest => do
      let block ← format node level none
      if block.isEmpty then
        sourceText format level isFirst rest
      else
        let isModule := node.unwrap.inner.kind? = some .moduleDeclaration
        let gap : Text := if isModule ∧ !isFirst then "\n" else ""
        let others ← sourceText format level false rest
        pure (gap ++ block ++ others)

/-- The parts of a module declaration. -/
structure ModuleParts where
  attributes : List Node := []
  keyword : Option Node := none
  name : Option Node := none
  parameters : Option Node := none
  ports : Option Node := none
  /-- The semicolon of the head. -/
  headEnd : Option Node := none
  items : List Node := []
  /-- The closing keyword. -/
  close : Option Node := none

/-- The first word of a module. -/
def isModuleKeyword (node : Node) : Bool :=
  node.kind? = some .moduleKeyword || node.isLexeme "module" || node.isLexeme "macromodule"

/-- A module declaration with one more child. -/
def ModuleParts.add (parts : ModuleParts) (node : Node) : ModuleParts :=
  if parts.keyword.isNone then
    if isModuleKeyword node then
      { parts with keyword := some node }
    else
      { parts with attributes := parts.attributes ++ [node] }
  else if parts.headEnd.isNone then
    match node.kind? with
    | some .moduleParameterPortList => { parts with parameters := some node }
    | some .listOfPortDeclarations | some .listOfPorts => { parts with ports := some node }
    | _ =>
        if node.isLexeme ";" then { parts with headEnd := some node }
        else if parts.name.isNone then { parts with name := some node }
        else { parts with items := parts.items ++ [node] }
  else if node.isLexeme "endmodule" then
    { parts with close := some node }
  else
    { parts with items := parts.items ++ [node] }

/-- The parts of the declaration with these children. -/
def ModuleParts.ofChildren (children : List Node) : ModuleParts :=
  children.foldl ModuleParts.add {}

/-- A head that is being written: the lines above, the line that is open, and the nodes whose
comments belong at its end. -/
structure Open where
  above : Text := []
  line : Text
  pending : List Node

/-- Nodes written with the same terminator. -/
def formatAll (format : Formatter) (level : Int) (terminator : Option Node) :
    List Node → Render Text
  | [] => pure []
  | node :: rest => do
      let text ← format node level terminator
      let others ← formatAll format level terminator rest
      pure (text ++ others)

/-- The declarations of a list, each with the comma behind its group. -/
def declarationLines (format : Formatter) (level : Int) : List Group → Render Text
  | [] => pure []
  | group :: rest => do
      let lines ← formatAll format level group.separator group.items
      let others ← declarationLines format level rest
      pure (lines ++ others)

/-- The list of parameters in a module's head. -/
def parameterList (format : Formatter) (node : Node) (level : Int) (head : Open) :
    Render Open := do
  let children := node.children
  let front := through (indexOf? "(" children)
  let comments ← endOfLine level (head.pending ++ children.take front)
  let lines ← declarationLines format (level + 1)
    (groups "," (between children front (children.length - 1)))
  let close ← require children.getLast?
  pure
    { above := head.above ++ head.line ++ " #(" ++ comments ++ "\n" ++ lines
      line := indentFor level ++ ")"
      pending := [close] }

/-- Names of ports, one to a line. -/
def portNameLines (level : Int) (separator : Option Node) : List Node → Render Text
  | [] => pure []
  | node :: rest => do
      let comma : Text := if separator.isSome then "," else ""
      let comments ← endOfLine level (node :: separator.toList)
      let others ← portNameLines level separator rest
      pure (indentFor level ++ node.text ++ comma ++ comments ++ "\n" ++ others)

/-- Groups of names of ports. -/
def portNameGroups (level : Int) : List Group → Render Text
  | [] => pure []
  | group :: rest => do
      let lines ← portNameLines level group.separator group.items
      let others ← portNameGroups level rest
      pure (lines ++ others)

/-- The list of ports in a module's head. -/
def portList (format : Formatter) (node : Node) (level : Int) (head : Open) : Render Open := do
  let children := node.children
  let front := through (indexOf? "(" children)
  let entries := groups "," (between children front (children.length - 1))
  if entries.isEmpty then
    pure { head with line := head.line ++ " ()", pending := head.pending ++ children }
  else
    let comments ← endOfLine level (head.pending ++ children.take front)
    let lines ←
      if node.kind? = some .listOfPortDeclarations then
        declarationLines format (level + 1) entries
      else
        portNameGroups (level + 1) entries
    pure
      { above := head.above ++ head.line ++ " (" ++ comments ++ "\n" ++ lines
        line := indentFor level ++ ")"
        pending := children.getLast?.toList }

/-- Comments behind the closing keyword of a module: a line comment that comes first stays on the
line, all others go below. The first text is the end of the line. -/
def closingComments (indent : Text) : List Comment → Text × Text
  | [] => ([], [])
  | comment :: rest =>
      if comment.isLine then (" " ++ comment.text, Ledger.emitted indent rest)
      else ([], Ledger.emitted indent (comment :: rest))

/-- The closing keyword of a module with its comments. -/
def moduleEnd (close : Option Node) (level : Int) : Render Text := do
  match close with
  | none => pure []
  | some token =>
      let front ← emit token.leading (indentFor (level + 1))
      let (behind, below) := closingComments (indentFor level) (← take token.trailing)
      pure (front ++ indentFor level ++ "endmodule" ++ behind ++ "\n" ++ below)

/-- The text of an optional node. -/
def optionalText (node? : Option Node) : Text :=
  (node?.map text).getD []

/-- The first line of a module, which writes its own indentation. -/
def moduleHead (parts : ModuleParts) (level : Int) : Open :=
  let attributes : Text :=
    if parts.attributes.isEmpty then "" else spacedText parts.attributes ++ " "
  let title := optionalText parts.keyword ++ " " ++ optionalText parts.name
  { line := indentFor level ++ attributes ++ Text.trimRight title
    pending := parts.attributes ++ parts.keyword.toList ++ parts.name.toList }

/-- The declaration of a module. -/
def moduleDeclaration (format : Formatter) (node : Node) (level : Int) : Render Text := do
  let parts := ModuleParts.ofChildren node.children
  let head := moduleHead parts level
  let head ←
    match parts.parameters with
    | some parameters => parameterList format parameters level head
    | none => pure head
  let head ←
    match parts.ports with
    | some ports => portList format ports level head
    | none => pure head
  let comments ← endOfLine level (head.pending ++ parts.headEnd.toList)
  let lines ← items format (level + 1) parts.items
  let close ← moduleEnd parts.close level
  pure (head.above ++ head.line ++ ";" ++ comments ++ "\n" ++ lines ++ close)

/-- The nodes without a closing keyword at their end, and that keyword. -/
def splitClosing (nodes : List Node) : List Node × Option Node :=
  match nodes.getLast? with
  | some last =>
      if last.isToken && Text.startsWith last.lexeme "end" then (nodes.dropLast, some last)
      else (nodes, none)
  | none => (nodes, none)

/-- A generate region, a function or a task. -/
def keywordBlock (format : Formatter) (node : Node) (level : Int) : Render Text := do
  let (children, close) := splitClosing node.children
  let size :=
    if node.kind? = some .generateRegion then 1
    else ((indexOf? ";" children).map (· + 1)).getD 1
  let head := children.take size
  let comments ← endOfLine level head
  let lines ← items format (level + 1) (children.drop size)
  let last ←
    match close with
    | some token => closingLine close token.lexeme level []
    | none => pure []
  pure (spacedText head ++ comments ++ "\n" ++ lines ++ last)

end VerilogLayout.Render

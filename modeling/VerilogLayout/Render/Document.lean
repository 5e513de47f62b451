import VerilogLayout.Render.Declaration
import VerilogLayout.Render.Instance
import VerilogLayout.Render.Module
import VerilogLayout.Render.Statement

/-!
# Rendering a tree

`Node.formatWith` writes one node: its comments in front, the phrase by the renderer of its kind or
as it stands, the terminator, and its comments behind. `Node.formatAt` ties the knot with a fuel
that bounds the height of the tree, and `Node.format` gives it enough. `Node.formatTree` writes a
whole tree with a fresh ledger, and comments that found no place at the end.
-/

namespace VerilogLayout

namespace Node

open Render

/-- The renderer of a kind; kinds without one are written as they stand. -/
def renderer? (columns : Columns) (format : Formatter) (kind : Kind) :
    Option (Node → Int → Option Node → Render Text) :=
  match kind with
  | .sourceText => some fun node level _ => sourceText format level true node.children
  | .moduleDeclaration => some fun node level _ => moduleDeclaration format node level
  | .continuousAssign => some (continuousAssign columns)
  | .moduleInstantiation => some (moduleInstantiation columns)
  | .alwaysConstruct | .initialConstruct => some fun node level _ => procedural format node level
  | .seqBlock => some fun node level _ => seqBlock format node level
  | .conditionalStatement | .ifGenerateConstruct =>
      some fun node level _ => conditional format node.height node level []
  | .caseStatement => some fun node level _ => caseStatement format node level
  | .caseItem => some fun node level _ => caseItem format node level
  | .loopStatement | .loopGenerateConstruct => some fun node level _ => loop format node level
  | .proceduralTimingControlStatement => some fun node level _ => timingControl format node level
  | .blockingAssignment | .nonblockingAssignment => some assignment
  | .generateRegion | .functionDeclaration | .taskDeclaration =>
      some fun node level _ => keywordBlock format node level
  | .generateBlock => some fun node level _ => generateBlock format node level
  | .inputDeclaration | .outputDeclaration | .inoutDeclaration | .tfInputDeclaration
  | .tfOutputDeclaration | .tfInoutDeclaration => some (portDeclaration columns)
  | .netDeclaration | .regDeclaration | .integerDeclaration | .realDeclaration | .timeDeclaration
  | .genvarDeclaration => some (signalDeclaration columns)
  | .parameterDeclaration | .localParameterDeclaration => some (parameterDeclaration columns)
  | _ => none

/-- The last line of a text that ends with a line feed. -/
def lastLine (text : Text) : Text :=
  Text.afterLast '\n' (Text.dropLast text)

/-- A text ends with a line feed. -/
def endsLine (text : Text) : Bool :=
  Text.endsWith text "\n"

/-- A text with a terminator behind its last line, or below it if a line comment may end it. -/
def attach (text terminator indent : Text) : Text :=
  if !endsLine text then text ++ terminator
  else if Text.includes (lastLine text) "//" then text ++ indent ++ terminator
  else Text.dropLast text ++ terminator ++ "\n"

/-- The comments in front of a node: those of its wrappers, its own, and those of its first
token. -/
def headComments (unwrapped : Unwrapped) (indent : Text) : Render Text := do
  let inner := unwrapped.inner
  let front ← emit (wrapperLeading unwrapped.wrappers) indent
  let own ← emit inner.leading indent
  let first ← emit ((inner.firstToken?.map leading).getD []) indent
  pure (front ++ own ++ first)

/-- A text with the trailing comments of a node and its wrappers behind it. -/
def addTrailing (text : Text) (comments : List Comment) (indent : Text) : Render Text := do
  if comments.isEmpty then
    pure text
  else if endsLine text then
    pure (text ++ (← emit comments indent))
  else
    let pending ← unwritten comments
    let behind ← inline comments indent
    let ending : Text := if pending.getLast?.any Comment.isLine then "\n" else ""
    pure (text ++ behind ++ ending)

/-- The phrase of a node with its terminator. -/
def formatBody (columns : Columns) (format : Formatter) (inner : Node) (level : Int)
    (terminator : Option Node) : Render Text := do
  let kind := inner.kind?
  let body ←
    match kind.bind (renderer? columns format) with
    | some render => render inner level terminator
    | none => woven inner
  match terminator with
  | some token =>
      -- A renderer that lays out its own terminator has written the comments of it too.
      if kind.any Kind.writesTerminator then
        pure body
      else
        let body := attach body (Lexeme.spaced {} token.name token.lexeme) (indentFor level)
        let comments ← inline token.comments (indentFor level)
        pure (body ++ comments)
  | none => pure body

/-- A node at a level, written with `format` for the phrases inside. The root of a tree is not
indented and always ends its line. -/
def formatWith (columns : Columns) (format : Formatter) (root : Bool) (node : Node) (level : Int)
    (given : Option Node) : Render Text := do
  let unwrapped := node.unwrap
  let inner := unwrapped.inner
  let terminator := given <|> unwrapped.terminator
  let isMajor := root || (unwrapped.wrappers ++ [inner]).any (·.is Kind.isMajor)
  let indent := indentFor level
  -- A phrase inside of a line leaves the comments in front to whoever writes the line.
  let head ← if !isMajor && inner.is Kind.isInline then pure [] else headComments unwrapped indent
  let body ← formatBody columns format inner level terminator
  let isIndented := root || inner.is Kind.indentsItself || body.isEmpty ||
    Text.startsWith body "\n"
  let body := if isIndented then body else indent ++ body
  let body ← addTrailing body (inner.trailing ++ wrapperTrailing unwrapped.wrappers) indent
  let text := head ++ body
  pure (if isMajor && !text.isEmpty && !endsLine text then text ++ "\n" else text)

/-- A node at a level. The fuel bounds the height of the node; without any nothing is written. -/
def formatAt (columns : Columns) : Nat → Formatter
  | 0 => fun _ _ _ => pure []
  | fuel + 1 => formatWith columns (formatAt columns fuel) false

/-- A node at a level, with the terminator that belongs behind it. -/
def format (columns : Columns) (root : Bool) (node : Node) (level : Int)
    (terminator : Option Node) : Render Text :=
  formatWith columns (formatAt columns node.height) root node level terminator

/-- A tree and, behind it, the comments that no renderer has written, with their number. -/
def formatWhole (columns : Columns) (root : Node) : Render (Text × Nat) := do
  let text ← format columns true root 0 none
  let ledger ← get
  let leftovers := ledger.unwritten root.comments
  if leftovers.isEmpty then
    pure (text, 0)
  else
    let text := if text.isEmpty || endsLine text then text else text ++ "\n"
    pure (text ++ (← emit leftovers []), leftovers.length)

/-- A text without the marks of the end of the file and the blanks at its end. The fuel bounds the
number of marks. -/
def dropEndMarks : Nat → Text → Text
  | 0, text => text
  | fuel + 1, text =>
      if Text.endsWith text Lexeme.endOfFile then
        dropEndMarks fuel
          (Text.trimRight (text.take (text.length - Lexeme.endOfFile.length)))
      else
        text

/-- A text with one line feed at its end, or the empty text if nothing is left. -/
def cleanEnd (text : Text) : Text :=
  let trimmed := Text.trimRight text
  let rest := dropEndMarks trimmed.length trimmed
  if rest.isEmpty then [] else rest ++ "\n"

/-- The text of a tree, every comment in it once, and how many comments were appended. -/
def formatTreeCounted (columns : Columns) (root : Node) : Except RenderError (Text × Nat) :=
  ((formatWhole columns root).run {}).1.map fun (text, appended) => (cleanEnd text, appended)

/-- The text of a tree, every comment in it once. -/
def formatTree (columns : Columns) (root : Node) : Except RenderError Text :=
  (formatTreeCounted columns root).map (·.1)

end Node
end VerilogLayout

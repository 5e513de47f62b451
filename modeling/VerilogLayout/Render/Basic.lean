import VerilogLayout.Column.Line
import VerilogLayout.Spacing.Phrase

/-!
# Rendering with a ledger

A `Render` writes text and consumes comments from a ledger on the way; it fails if a phrase lacks
a child that it cannot be written without, and what was consumed until then stays consumed. The
functions below write comments at the end of a line, lines that close a block, and phrases in the
manner of keywords. A `Formatter` is what a renderer calls for the phrases inside its own.
-/

namespace VerilogLayout

/-- Why a tree cannot be rendered. -/
inductive RenderError where
  | missingChild
deriving DecidableEq, Repr

namespace RenderError

/-- The message of an error. -/
def message : RenderError → Text
  | .missingChild => "list index out of range"

/-- The error with the name of its kind. -/
def named (e : RenderError) : Text :=
  "IndexError: " ++ e.message

end RenderError

/-- A computation that consumes comments and may fail. -/
abbrev Render := ExceptT RenderError (StateM Ledger)

/-- Writes a node at a level, with the terminator that belongs behind it. -/
abbrev Formatter := Node → Int → Option Node → Render Text

namespace Render

/-- The comments that have not been written yet; from now on they have been. -/
def take (comments : List Comment) : Render (List Comment) :=
  modifyGet (Ledger.take comments)

/-- Unwritten comments on lines of their own. -/
def emit (comments : List Comment) (indent : Text) : Render Text := do
  pure (Ledger.emitted indent (← take comments))

/-- Unwritten comments behind the code of a line. -/
def inline (comments : List Comment) (indent : Text) : Render Text := do
  pure (Ledger.inlined indent (← take comments))

/-- The comments that have not been written yet, which they stay. -/
def unwritten (comments : List Comment) : Render (List Comment) := do
  let ledger ← get
  pure (comments.filter fun comment => !ledger.isConsumed comment.index)

/-- The text of a node with its unwritten comments. -/
def woven (node : Node) : Render Text :=
  node.spelled take

/-- The unwritten comments of nodes at the end of a line. -/
def endOfLine (level : Int) (nodes : List Node) : Render Text :=
  inline (Node.commentsAll nodes) (indentFor level)

/-- A node that a phrase cannot be written without. -/
def require (node? : Option Node) : Render Node :=
  match node? with
  | some node => pure node
  | none => throw .missingChild

/-- The texts of nodes at a level, one behind the other. -/
def items (format : Formatter) (level : Int) : List Node → Render Text
  | [] => pure []
  | node :: nodes => do
      let text ← format node level none
      let rest ← items format level nodes
      pure (text ++ rest)

/-- A line that closes a block. Comments in front of its keyword stay inside the block, one level
deeper, and those behind it on its line. -/
def closingLine (token : Option Node) (text : Text) (level : Int) (extra : List Comment) :
    Render Text := do
  let front ← emit ((token.map Node.leading).getD []) (indentFor (level + 1))
  let behind ← inline ((token.map Node.trailing).getD [] ++ extra) (indentFor level)
  pure (front ++ indentFor level ++ text ++ behind ++ "\n")

end Render

/-- The text without the indentation of a level in front. -/
def stripIndent (text : Text) (level : Int) : Text :=
  let indent := indentFor level
  if Text.startsWith text indent then text.drop indent.length else text

namespace Node

/-- The nodes without a semicolon at their end, and that semicolon or else the one given. -/
def splitTerminator (nodes : List Node) (given : Option Node) : List Node × Option Node :=
  match nodes.getLast? with
  | some last => if last.isLexeme ";" then (nodes.dropLast, some last) else (nodes, given)
  | none => (nodes, given)

/-- The lexeme of a terminator, if there is one. -/
def terminatorText (terminator : Option Node) : Text :=
  (terminator.map lexeme).getD []

/-- The children of a phrase, or the nodes as they are unless they are one phrase. -/
def opened (nodes : List Node) : List Node :=
  match nodes with
  | [node] => if node.isToken then nodes else node.children
  | _ => nodes

/-- The text ends in a word, a line feed behind it not counted. -/
def endsInWord (text : Text) : Bool :=
  match text.reverse with
  | '\n' :: c :: _ => Text.isWord c
  | c :: _ => Text.isWord c
  | [] => false

/-- Two pieces in the manner of keywords touch: at an opening parenthesis behind a word, in front
of a closing one, a comma and a semicolon, and behind `(`, `#` and `@`. -/
def touches (front piece : Text) : Bool :=
  Text.startsWith piece ";" || Text.startsWith piece "," || Text.startsWith piece ")" ||
    Text.endsWith front "(" || Text.endsWith front "#" || Text.endsWith front "@" ||
    (Text.startsWith piece "(" && endsInWord front)

/-- The text with one more piece in the manner of keywords. -/
def addSpaced (front piece : Text) : Text :=
  if front.isEmpty || piece.isEmpty || touches front piece then front ++ piece
  else front ++ " " ++ piece

/-- The texts of nodes in the manner of keywords, with a space wherever they may not touch. -/
def spacedText (nodes : List Node) : Text :=
  (nodes.map text).foldl addSpaced []

/-- The place of the parenthesis that closes the first one in `nodes`; `depth` parentheses are
open in front of them. -/
def closingParen? (depth : Nat) : List Node → Option Nat
  | [] => none
  | node :: nodes =>
      if node.isLexeme "(" then
        (closingParen? (depth + 1) nodes).map (· + 1)
      else if node.isLexeme ")" then
        if depth ≤ 1 then some 0 else (closingParen? (depth - 1) nodes).map (· + 1)
      else
        (closingParen? depth nodes).map (· + 1)

/-- The places of the first opening parenthesis and of the one that closes it. -/
def parens? (nodes : List Node) : Option (Nat × Nat) := do
  let opening ← indexOf? "(" nodes
  let closing ← closingParen? 0 (nodes.drop opening)
  pure (opening, opening + closing)

/-- The nodes from `start` up to but not including `stop`. -/
def between (nodes : List Node) (start stop : Nat) : List Node :=
  (nodes.take stop).drop start

/-- The number of nodes up to and including the one found. -/
def through (place : Option Nat) : Nat :=
  (place.map (· + 1)).getD 0

end Node
end VerilogLayout

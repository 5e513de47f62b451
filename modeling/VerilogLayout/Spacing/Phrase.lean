import VerilogLayout.Ledger
import VerilogLayout.Spacing.Join
import VerilogLayout.Spacing.Lexeme
import VerilogLayout.Tree.Wrapper

/-!
# The text of a phrase

A phrase is written as its tokens with their own spaces, joined by the adjacency rule at every
level of the tree. `Node.spelled` leaves it open where comments come from: `Node.text` leaves them
out, and `Node.woven` writes those that a ledger has not seen around the tokens they hang on.
-/

namespace VerilogLayout.Node

/-- Comments in front of a token: a line comment ends its line. -/
def commentsInFront (comments : List Comment) : Text :=
  comments.flatMap fun comment => comment.text ++ (if comment.isLine then "\n" else " ")

/-- Comments behind a token: a line comment ends its line. -/
def commentsBehind (comments : List Comment) : Text :=
  comments.flatMap fun comment => " " ++ comment.text ++ (if comment.isLine then "\n" else "")

/-- The bracket depth behind a closing bracket. -/
def depthBefore (node : Node) (depth : Int) : Int :=
  if node.isLexeme "]" then depth - 1 else depth

/-- The bracket depth behind an opening bracket. -/
def depthAfter (node : Node) (depth : Int) : Int :=
  if node.isLexeme "[" then depth + 1 else depth

section
variable {m : Type → Type} [Monad m] (take : List Comment → m (List Comment))

mutual
/-- The text of a node at a place; `take` says which of its comments are written. -/
def spelledAt (place : Lexeme.Place) : Node → m Text
  | ⟨name, value, children, leading, trailing⟩ => do
      let front := commentsInFront (← take leading)
      match children with
      | [] =>
          let behind := commentsBehind (← take trailing)
          pure (front ++ Lexeme.spaced place name (value.getD []) ++ behind)
      | _ :: _ =>
          let pieces ← spelledAll name true place.inRange 0 children
          let behind := commentsBehind (← take trailing)
          pure (Spacing.joinPieces ([front] ++ pieces ++ [behind]))

/-- The texts of the children of a node; `depth` counts the brackets that are open. -/
def spelledAll (parent : Text) (isFirst inRange : Bool) (depth : Int) : List Node → m (List Text)
  | [] => pure []
  | node :: rest => do
      let depth := node.depthBefore depth
      let place := {
        parent := some parent
        isFirst
        inRange := inRange || decide (0 < depth) || node.is Kind.isRangeContext }
      let piece ← spelledAt place node
      let pieces ← spelledAll parent false inRange (node.depthAfter depth) rest
      pure (piece :: pieces)
end

/-- The text of a node that stands alone, without the spaces at its ends. -/
def spelled (node : Node) : m Text := do
  let text ← node.spelledAt take { inRange := node.is Kind.isRangeContext }
  pure (Text.trimSpaces text)

end

/-- The text of a node without its comments. -/
def text (node : Node) : Text :=
  Id.run (node.spelled fun _ => pure [])

/-- The text of a node with the comments that the ledger has not seen. -/
def woven (node : Node) : StateM Ledger Text :=
  node.spelled fun comments => modifyGet (Ledger.take comments)

/-- The texts of nodes side by side, without comments. -/
def joinedText (nodes : List Node) : Text :=
  Spacing.joinPieces (nodes.map text)

end VerilogLayout.Node

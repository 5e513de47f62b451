import VerilogLayout.Text.Basic

/-!
# Syntax trees

A `Node` is a token, which has a lexeme and no children, or a phrase, which has children. Comments
hang on the node they were found next to and carry the index of the token they were read with; the
index identifies a comment. `Node.tokens` and `Node.comments` are the views in which the theorems
about rendering speak.
-/

namespace VerilogLayout

/-- The two forms of a comment. -/
inductive CommentKind where
  | line
  | block
deriving DecidableEq, Repr, Inhabited

/-- A comment with its delimiters. -/
structure Comment where
  text : Text
  kind : CommentKind
  index : Int
deriving DecidableEq, Repr, Inhabited

namespace Comment

/-- A line comment swallows the rest of its line. -/
def isLine (comment : Comment) : Bool :=
  comment.kind = .line

end Comment

/-- A node of a syntax tree. -/
structure Node where
  name : Text
  value : Option Text := none
  children : List Node := []
  leading : List Comment := []
  trailing : List Comment := []
deriving Inhabited, Repr

namespace Node

mutual
/-- Nodes are compared with all they hold. -/
def decEq : (a b : Node) → Decidable (a = b)
  | ⟨name, value, children, leading, trailing⟩, ⟨name', value', children', leading', trailing'⟩ =>
      match decEqAll children children' with
      | .isTrue h =>
          decidable_of_iff
            (name = name' ∧ value = value' ∧ leading = leading' ∧ trailing = trailing')
            (by simp [h])
      | .isFalse h => .isFalse fun heq => h (by injection heq)

/-- Lists of nodes are compared in order. -/
def decEqAll : (a b : List Node) → Decidable (a = b)
  | [], [] => .isTrue rfl
  | [], _ :: _ => .isFalse nofun
  | _ :: _, [] => .isFalse nofun
  | a :: as, b :: bs =>
      match decEq a b, decEqAll as bs with
      | .isTrue h, .isTrue hs => .isTrue (by rw [h, hs])
      | .isFalse h, _ => .isFalse fun heq => h (by injection heq)
      | _, .isFalse hs => .isFalse fun heq => hs (by injection heq)
end

/-- Nodes can be told apart. -/
instance : DecidableEq Node :=
  decEq

/-- A token has a lexeme and no children. -/
def isToken (node : Node) : Bool :=
  node.value.isSome && node.children.isEmpty

/-- The lexeme of a token; a phrase has the empty one. -/
def lexeme (node : Node) : Text :=
  node.value.getD []

/-- `isLexeme t node` holds if the node is a token that is written `t`. -/
def isLexeme (t : Text) (node : Node) : Bool :=
  node.isToken && node.lexeme == t

mutual
/-- The tokens of a node from left to right. -/
def tokens : Node → List Node
  | ⟨name, value, children, leading, trailing⟩ =>
      match value, children with
      | some lexeme, [] => [⟨name, some lexeme, [], leading, trailing⟩]
      | _, children => tokensAll children

/-- The tokens of nodes from left to right. -/
def tokensAll : List Node → List Node
  | [] => []
  | node :: nodes => tokens node ++ tokensAll nodes
end

mutual
/-- The comments of a node and of all below it, in the order of the document. -/
def comments : Node → List Comment
  | ⟨_, _, children, leading, trailing⟩ => leading ++ commentsAll children ++ trailing

/-- The comments of nodes, in the order of the document. -/
def commentsAll : List Node → List Comment
  | [] => []
  | node :: nodes => comments node ++ commentsAll nodes
end

mutual
/-- The number of nodes on the longest way down. -/
def height : Node → Nat
  | ⟨_, _, children, _, _⟩ => heightAll children + 1

/-- The greatest height among nodes. -/
def heightAll : List Node → Nat
  | [] => 0
  | node :: nodes => max (height node) (heightAll nodes)
end

/-- The first token of a node. -/
def firstToken? (node : Node) : Option Node :=
  node.tokens.head?

mutual
/-- The first node below this one that has a name, a parent coming before its children. -/
def findBelow? (target : Text) : Node → Option Node
  | ⟨_, _, children, _, _⟩ => findAmong? target children

/-- The first node with a name among nodes and all below them. -/
def findAmong? (target : Text) : List Node → Option Node
  | [] => none
  | node :: nodes =>
      if node.name = target then some node
      else
        match findBelow? target node with
        | some found => some found
        | none => findAmong? target nodes
end

/-- The children are lower than their node. -/
theorem height_lt_of_mem {child node : Node} (h : child ∈ node.children) :
    child.height < node.height := by
  obtain ⟨name, value, children, leading, trailing⟩ := node
  have hle : ∀ nodes : List Node, child ∈ nodes → child.height ≤ heightAll nodes := by
    intro nodes
    induction nodes with
    | nil => simp
    | cons head tail ih =>
      intro hmem
      rcases List.mem_cons.1 hmem with rfl | hmem
      · exact Nat.le_max_left _ _
      · exact Nat.le_trans (ih hmem) (Nat.le_max_right _ _)
  exact Nat.lt_succ_of_le (hle children h)

end Node
end VerilogLayout

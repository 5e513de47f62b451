import VerilogLayout.Tree.Kind
import VerilogLayout.Tree.Node

/-!
# Wrappers and groups

`Node.unwrap` goes through wrappers, each of which holds one phrase and perhaps a semicolon behind
it, down to the phrase that is laid out. `Node.groups` cuts a list of nodes at its separators and
`Node.indexOf?` finds a token. `groups_flatten` says that cutting loses no node.
-/

namespace VerilogLayout

/-- A node without its wrappers. -/
structure Unwrapped where
  inner : Node
  /-- The semicolon of the outermost wrapper that has one. -/
  terminator : Option Node := none
  /-- The wrappers, outermost first. -/
  wrappers : List Node := []
deriving Inhabited, Repr

/-- A run of nodes with the separator behind it. -/
structure Group where
  items : List Node
  separator : Option Node := none
deriving Inhabited, Repr

namespace Node

/-- The rule that a node is named after. -/
def kind? (node : Node) : Option Kind :=
  Kind.ofName? node.name

/-- `is p node` holds if the node is named after a rule in the class `p`. -/
def is (p : Kind → Bool) (node : Node) : Bool :=
  node.kind?.any p

/-- The name of a wrapper. -/
def isWrapperName (name : Text) : Bool :=
  (Kind.ofName? name).any Kind.isWrapper

/-- The phrase inside the wrappers, with what the wrappers add to it. -/
def unwrap : Node → Unwrapped
  | ⟨name, value, [inner], leading, trailing⟩ =>
      if isWrapperName name && !inner.isToken then
        let below := unwrap inner
        { below with wrappers := ⟨name, value, [inner], leading, trailing⟩ :: below.wrappers }
      else
        { inner := ⟨name, value, [inner], leading, trailing⟩ }
  | ⟨name, value, [inner, last], leading, trailing⟩ =>
      if isWrapperName name && !inner.isToken && last.isLexeme ";" then
        let below := unwrap inner
        { inner := below.inner
          terminator := some last
          wrappers := ⟨name, value, [inner, last], leading, trailing⟩ :: below.wrappers }
      else
        { inner := ⟨name, value, [inner, last], leading, trailing⟩ }
  | node => { inner := node }

/-- The nodes between the tokens written `lexeme`, each run with the token behind it; a run that
would be empty at the end is left out. -/
def groups (lexeme : Text) : List Node → List Group
  | [] => []
  | node :: rest =>
      if node.isLexeme lexeme then
        { items := [], separator := some node } :: groups lexeme rest
      else
        match groups lexeme rest with
        | [] => [{ items := [node] }]
        | group :: others => { group with items := node :: group.items } :: others

/-- The place of the first token written `lexeme` that is not before `start`. -/
def indexOf? (lexeme : Text) (nodes : List Node) (start : Nat := 0) : Option Nat :=
  ((nodes.drop start).findIdx? (isLexeme lexeme)).map (start + ·)

/-- Cutting at separators loses no node. -/
theorem groups_flatten (lexeme : Text) (nodes : List Node) :
    (groups lexeme nodes).flatMap (fun group => group.items ++ group.separator.toList) = nodes := by
  induction nodes with
  | nil => rfl
  | cons node rest ih =>
    unfold groups
    split
    · simp [ih]
    · split
      · next h => simpa [h] using ih
      · next group others h =>
        rw [h] at ih
        simpa using ih

end Node
end VerilogLayout

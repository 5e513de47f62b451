import VerilogLayout.Proofs.Plain.Statement

/-!
# Dropping blocks

`Node.collapse` replaces every block that can be dropped by its statement, wherever it stands in a
tree. Tokens stay, so every way of looking for a token finds it at the same place: read
`isLexeme_collapse` first.
-/

namespace VerilogLayout

namespace Node

mutual
/-- The node with every block that can be dropped replaced by its statement. -/
def collapse : Node → Node
  | ⟨name, value, [first, statement, last], leading, trailing⟩ =>
      if isCollapsible ⟨name, value, [first, statement, last], leading, trailing⟩ then
        collapse statement
      else
        ⟨name, value, [collapse first, collapse statement, collapse last], leading, trailing⟩
  | ⟨name, value, children, leading, trailing⟩ =>
      ⟨name, value, collapseAll children, leading, trailing⟩

/-- The nodes with every block that can be dropped replaced by its statement. -/
def collapseAll : List Node → List Node
  | [] => []
  | node :: nodes => collapse node :: collapseAll nodes
end

/-- Nodes are collapsed one by one. -/
theorem collapseAll_eq_map (nodes : List Node) : collapseAll nodes = nodes.map collapse := by
  induction nodes with
  | nil => rfl
  | cons node rest ih => rw [collapseAll, ih, List.map_cons]

/-- A block that can be dropped becomes its statement. -/
theorem collapse_of_isCollapsible {node first statement last : Node} (h : node.isCollapsible)
    (hchildren : node.children = [first, statement, last]) :
    node.collapse = statement.collapse := by
  obtain ⟨name, value, children, leading, trailing⟩ := node
  cases hchildren
  rw [collapse, if_pos h]

/-- Any other node keeps what it is and collapses its children. -/
theorem collapse_of_not_isCollapsible {node : Node} (h : node.isCollapsible = false) :
    node.collapse = { node with children := node.children.map collapse } := by
  obtain ⟨name, value, children, leading, trailing⟩ := node
  unfold collapse
  split
  · next heq =>
      cases heq
      rw [if_neg (Bool.eq_false_iff.1 h)]
      rfl
  · next heq =>
      cases heq
      rw [collapseAll_eq_map]

section
variable {node : Node} (h : node.isCollapsible = false)
include h

/-- A node that is not dropped keeps its name. -/
theorem name_collapse : node.collapse.name = node.name := by
  rw [collapse_of_not_isCollapsible h]

/-- A node that is not dropped keeps its kind. -/
theorem kind?_collapse : node.collapse.kind? = node.kind? := by
  rw [kind?, kind?, name_collapse h]

/-- A node that is not dropped keeps what its kind says. -/
theorem is_collapse (p : Kind → Bool) : node.collapse.is p = node.is p := by
  rw [is, is, kind?_collapse h]

theorem children_collapse : node.collapse.children = node.children.map collapse := by
  rw [collapse_of_not_isCollapsible h]

/-- A node is changed only below itself. -/
theorem collapse_eq_self (hchildren : ∀ child ∈ node.children, child.collapse = child) :
    node.collapse = node := by
  have hsame : node.children.map collapse = node.children := by
    rw [List.map_congr_left hchildren, List.map_id']
  rw [collapse_of_not_isCollapsible h, hsame]
  cases node
  rfl

end

/-! ## Tokens -/

/-- No token is dropped. -/
theorem isCollapsible_of_isToken {node : Node} (h : node.isToken) : node.isCollapsible = false := by
  rw [isToken, Bool.and_eq_true] at h
  rw [isCollapsible, List.isEmpty_iff.1 h.2]

/-- A token stays as it is. -/
theorem collapse_of_isToken {node : Node} (h : node.isToken) : node.collapse = node := by
  refine collapse_eq_self (isCollapsible_of_isToken h) fun child hchild => ?_
  rw [isToken, Bool.and_eq_true, List.isEmpty_iff] at h
  rw [h.2] at hchild
  cases hchild

/-- A phrase stays a phrase. -/
theorem isToken_collapse (node : Node) : node.collapse.isToken = node.isToken := by
  induction hn : node.height using Nat.strong_induction_on generalizing node with
  | _ n ih =>
      cases hcollapsible : node.isCollapsible with
      | true =>
          obtain ⟨-, first, statement, last, hchildren, -, -, htoken, -⟩ :=
            of_isCollapsible hcollapsible
          have hlt := height_lt_of_mem (show statement ∈ node.children by simp [hchildren])
          rw [collapse_of_isCollapsible hcollapsible hchildren, ih _ (by omega) statement rfl,
            htoken]
          simp [isToken, hchildren]
      | false =>
          rw [collapse_of_not_isCollapsible hcollapsible]
          simp [isToken]

/-- A token is found where it was found before. -/
theorem isLexeme_collapse (lexeme : Text) (node : Node) :
    node.collapse.isLexeme lexeme = node.isLexeme lexeme := by
  cases htoken : node.isToken with
  | true => rw [collapse_of_isToken htoken]
  | false => rw [isLexeme, isLexeme, isToken_collapse, htoken, Bool.false_and, Bool.false_and]

/-- Collapsing keeps the lexeme at the front. -/
theorem head?_any_isLexeme_collapse (lexeme : Text) (nodes : List Node) :
    (nodes.map collapse).head?.any (isLexeme lexeme) = nodes.head?.any (isLexeme lexeme) := by
  cases nodes with
  | nil => rfl
  | cons node rest => exact isLexeme_collapse lexeme node

/-- Collapsing keeps the place of a lexeme. -/
theorem indexOf?_collapse (lexeme : Text) (nodes : List Node) (start : Nat) :
    indexOf? lexeme (nodes.map collapse) start = indexOf? lexeme nodes start := by
  rw [indexOf?, indexOf?, ← List.map_drop, List.findIdx?_map]
  simp only [Function.comp_def, isLexeme_collapse]

/-- Collapsing keeps the place of the closing bracket. -/
theorem closingParen?_collapse (depth : Nat) (nodes : List Node) :
    closingParen? depth (nodes.map collapse) = closingParen? depth nodes := by
  induction nodes generalizing depth with
  | nil => rfl
  | cons node rest ih => simp only [List.map_cons, closingParen?, isLexeme_collapse, ih]

/-- Collapsing keeps the places of the brackets. -/
theorem parens?_collapse (nodes : List Node) :
    parens? (nodes.map collapse) = parens? nodes := by
  simp only [parens?, indexOf?_collapse, ← List.map_drop, closingParen?_collapse]

/-! ## Comments and heights -/

theorem within_collapse {S : Comment → Prop} {node : Node} (h : Render.Within S node) :
    Render.Within S node.collapse := by
  induction hn : node.height using Nat.strong_induction_on generalizing node with
  | _ n ih =>
      cases hcollapsible : node.isCollapsible with
      | true =>
          obtain ⟨-, first, statement, last, hchildren, -⟩ := of_isCollapsible hcollapsible
          have hmem : statement ∈ node.children := by simp [hchildren]
          have hlt := height_lt_of_mem hmem
          rw [collapse_of_isCollapsible hcollapsible hchildren]
          exact ih _ (by omega) (h.children _ hmem) rfl
      | false =>
          intro comment hcomment
          rw [collapse_of_not_isCollapsible hcollapsible, Render.comments_eq, List.mem_append,
            List.mem_append] at hcomment
          rcases hcomment with (hcomment | hcomment) | hcomment
          · exact h.leading _ hcomment
          · obtain ⟨child, hchild, hcomment⟩ := Render.mem_commentsAll.1 hcomment
            obtain ⟨inner, hinner, rfl⟩ := List.mem_map.1 hchild
            have hlt := height_lt_of_mem hinner
            exact ih _ (by omega) (h.children _ hinner) rfl _ hcomment
          · exact h.trailing _ hcomment

/-- A node is one higher than its highest child at most. -/
theorem height_le_of_children {node : Node} {n : Nat}
    (h : ∀ child ∈ node.children, child.height ≤ n) : node.height ≤ n + 1 := by
  obtain ⟨name, value, children, leading, trailing⟩ := node
  have hall : ∀ nodes : List Node, (∀ child ∈ nodes, child.height ≤ n) → heightAll nodes ≤ n := by
    intro nodes
    induction nodes with
    | nil => exact fun _ => Nat.zero_le n
    | cons first rest ih =>
        intro hnodes
        obtain ⟨hfirst, hrest⟩ := List.forall_mem_cons.1 hnodes
        exact Nat.max_le.2 ⟨hfirst, ih hrest⟩
  exact Nat.succ_le_succ (hall children h)

/-- Dropping blocks makes no tree higher. -/
theorem height_collapse_le (node : Node) : node.collapse.height ≤ node.height := by
  induction hn : node.height using Nat.strong_induction_on generalizing node with
  | _ n ih =>
      cases hcollapsible : node.isCollapsible with
      | true =>
          obtain ⟨-, first, statement, last, hchildren, -⟩ := of_isCollapsible hcollapsible
          have hlt := height_lt_of_mem (show statement ∈ node.children by simp [hchildren])
          have hle := ih _ (by omega) statement rfl
          rw [collapse_of_isCollapsible hcollapsible hchildren]
          omega
      | false =>
          obtain ⟨k, hk⟩ : ∃ k, n = k + 1 := ⟨n - 1, by have := height_pos node; omega⟩
          rw [collapse_of_not_isCollapsible hcollapsible, hk]
          refine height_le_of_children fun child hchild => ?_
          obtain ⟨inner, hinner, rfl⟩ := List.mem_map.1 hchild
          have hlt := height_lt_of_mem hinner
          have hle := ih _ (by omega) inner rfl
          omega

/-- A node that is not changed is no block that can be dropped. -/
theorem not_isCollapsible_of_collapse_eq {node : Node} (h : node.collapse = node) :
    node.isCollapsible = false := by
  rw [Bool.eq_false_iff]
  intro hcollapsible
  obtain ⟨-, first, statement, last, hchildren, -⟩ := of_isCollapsible hcollapsible
  have hlt := height_lt_of_mem (show statement ∈ node.children by simp [hchildren])
  have hle := height_collapse_le statement
  rw [collapse_of_isCollapsible hcollapsible hchildren] at h
  rw [h] at hle
  omega

/-- What stands in a node that is not changed is not changed. -/
theorem collapse_eq_of_mem {node child : Node} (h : node.collapse = node)
    (hmem : child ∈ node.children) : child.collapse = child := by
  have hchildren := children_collapse (not_isCollapsible_of_collapse_eq h)
  rw [h] at hchildren
  exact List.map_inj_left.1 (hchildren.symm.trans (List.map_id' _).symm) child hmem

end Node
end VerilogLayout

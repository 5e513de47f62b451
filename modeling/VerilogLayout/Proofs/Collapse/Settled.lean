import VerilogLayout.Proofs.Collapse.Basic
import VerilogLayout.Proofs.Procedural.Grammar
import VerilogLayout.Render.Document

/-!
# Blocks that are dropped in their places

A block that can be dropped is laid out like its statement where statements are laid out, but not
inside of text that is written as it stands. `Node.Settled` says that every such block of a tree
stands in a place of the first sort, and that dropping it makes no other block one that can be
dropped. `Settled.unwrap` is what a layout sees of a settled node behind its wrappers.
-/

namespace VerilogLayout

namespace Node

open Render

/-- The number of children up to the name of a module, or up to its first semicolon. -/
def titleSize (parts : ModuleParts) : List Node → Nat
  | [] => 0
  | node :: rest =>
      let parts := parts.add node
      if parts.name.isSome || parts.headEnd.isSome then 1 else titleSize parts rest + 1

/-- The number of children in the head of a region, a function or a task. -/
def headSize (node : Node) : Nat :=
  if node.kind? = some .generateRegion then 1
  else ((indexOf? ";" (splitClosing node.children).1).map (· + 1)).getD 1

/-- The number of children in front of the statements that a phrase lays out. A phrase without
such a number is written as it stands. -/
def frontSize? (inner : Node) : Option Nat :=
  match inner.kind? with
  | some .sourceText => some 0
  | some .moduleDeclaration => some (titleSize {} inner.children)
  | some .seqBlock => some ((blockLabel inner).length + 1)
  | some .generateBlock => some (if inner.opensBlock then (blockLabel inner).length + 1 else 0)
  | some .generateRegion | some .functionDeclaration | some .taskDeclaration =>
      some inner.headSize
  | some .conditionalStatement | some .ifGenerateConstruct | some .caseStatement =>
      (parens? inner.children).map (·.2 + 1)
  | some .caseItem => some (inner.children.length - 1)
  | some .alwaysConstruct | some .initialConstruct | some .loopStatement
  | some .loopGenerateConstruct | some .proceduralTimingControlStatement =>
      if 2 ≤ inner.children.length then some (inner.children.length - 1) else none
  | _ => none

/-- A node with a token that is no semicolon. -/
def HasWord (node : Node) : Prop :=
  ∃ token ∈ node.tokens, token.lexeme ≠ ";"

/-- A wrapper among these always ends its line. -/
def endsLineAmong (wrappers : List Node) : Bool :=
  wrappers.any (·.is Kind.isMajor)

/-- `Settled ended closed node` says that every block that can be dropped in the node stands where
statements are laid out, and that the node is laid out the same without it. `ended` says that the
line behind the node is ended anyway, and `closed` that a terminator stands behind it. -/
inductive Settled : Bool → Bool → Node → Prop where
  | fixed {ended closed node} : node.collapse = node → Settled ended closed node
  | dropped {ended node first statement last} : node.isCollapsible →
      node.children = [first, statement, last] → statement.collapse = statement →
      statement.HasWord → (ended || endsLineAmong statement.unwrap.wrappers) →
      Settled ended false node
  | wrapper {ended closed node inner} : isWrapperName node.name → node.children = [inner] →
      inner.isToken = false → Settled (ended || node.is Kind.isMajor) closed inner →
      Settled ended closed node
  | closed {ended closed node inner semicolon} : isWrapperName node.name →
      node.children = [inner, semicolon] → inner.isToken = false → semicolon.isLexeme ";" →
      Settled (ended || node.is Kind.isMajor) true inner → Settled ended closed node
  | phrase {ended closed node size} : node.frontSize? = some size →
      node.isCollapsible = false → node.collapse.isCollapsible = false →
      (∀ child ∈ node.children.take size, child.collapse = child) →
      (∀ child ∈ node.children.drop size, Settled false false child) →
      Settled ended closed node

/-- A phrase that is laid out the same when the blocks in it are dropped. -/
structure Framed (inner : Node) : Prop where
  not_isCollapsible : inner.isCollapsible = false
  not_isCollapsible_collapse : inner.collapse.isCollapsible = false
  fixed : inner.frontSize? = none → inner.collapse = inner
  front : ∀ size, inner.frontSize? = some size →
    ∀ child ∈ inner.children.take size, child.collapse = child
  back : ∀ size, inner.frontSize? = some size →
    ∀ child ∈ inner.children.drop size, Settled false false child

/-- A node that stays as it is keeps its frame. -/
theorem framed_of_collapse_eq {inner : Node} (h : inner.collapse = inner) : Framed inner where
  not_isCollapsible := not_isCollapsible_of_collapse_eq h
  not_isCollapsible_collapse := by rw [h]; exact not_isCollapsible_of_collapse_eq h
  fixed := fun _ => h
  front := fun _ _ _ hchild => collapse_eq_of_mem h (List.mem_of_mem_take hchild)
  back := fun _ _ _ hchild => .fixed (collapse_eq_of_mem h (List.mem_of_mem_drop hchild))

/-! ## Behind the wrappers -/

/-- No wrapper is dropped. -/
theorem not_isCollapsible_of_wrapper {node : Node} (h : isWrapperName node.name) :
    node.isCollapsible = false := by
  rw [Bool.eq_false_iff]
  intro hcollapsible
  rw [isWrapperName_eq (of_isCollapsible hcollapsible).1] at h
  cases h

/-- Behind its wrappers a node that is not changed is not changed. -/
theorem collapse_unwrap_eq {node : Node} (h : node.collapse = node) :
    node.unwrap.inner.collapse = node.unwrap.inner := by
  fun_induction Node.unwrap node with
  | case1 name value inner leading trailing _ below ih =>
      exact ih (collapse_eq_of_mem h List.mem_cons_self)
  | case3 name value inner last leading trailing _ below ih =>
      exact ih (collapse_eq_of_mem h List.mem_cons_self)
  | case2 | case4 | case5 => exact h

/-- A block that is dropped, as a layout sees it and its statement behind the wrappers. -/
structure Drop (ended : Bool) (before after : Unwrapped) : Prop where
  exists_block : ∃ first statement last, before.inner.isCollapsible ∧
    before.inner.children = [first, statement, last] ∧ statement.collapse = statement ∧
    after.inner = statement.unwrap.inner ∧ after.terminator = statement.unwrap.terminator
  terminator_eq_none : before.terminator = none
  endsLine : (ended || endsLineAmong after.wrappers) = true

/-- A phrase that stays, as a layout sees it behind the wrappers. -/
structure Stay (before after : Unwrapped) : Prop where
  framed : Framed before.inner
  inner_eq : after.inner = before.inner.collapse
  terminator_eq : after.terminator = before.terminator
  endsLine_eq : endsLineAmong after.wrappers = endsLineAmong before.wrappers

/-- A node with a front is no wrapper. -/
theorem not_isWrapperName_of_frontSize {node : Node} {size : Nat}
    (h : node.frontSize? = some size) : isWrapperName node.name = false := by
  unfold frontSize? at h
  split at h
  all_goals first
    | next hkind => rw [isWrapperName_eq hkind]; rfl
    | cases h

/-- A settled node, as a layout sees it before and after blocks are dropped. -/
theorem Settled.unwrap {ended closed : Bool} {node : Node} (h : Settled ended closed node) :
    (closed = false ∧ Drop ended node.unwrap node.collapse.unwrap) ∨
      Stay node.unwrap node.collapse.unwrap := by
  -- The wrappers are taken off one by one on both sides, down to the block that is dropped or the
  -- phrase that stays.
  induction h with
  | fixed h =>
      have hinner := collapse_unwrap_eq h
      rw [h]
      exact .inr ⟨framed_of_collapse_eq hinner, hinner.symm, rfl, rfl⟩
  | @dropped ended node first statement last hcollapsible hnode hstatement _ hends =>
      have hname : isWrapperName node.name = false := by
        rw [isWrapperName_eq (of_isCollapsible hcollapsible).1]
        rfl
      rw [collapse_of_isCollapsible hcollapsible hnode, hstatement, unwrap_of_not_wrapper hname]
      exact .inl ⟨rfl, ⟨first, statement, last, hcollapsible, hnode, hstatement, rfl, rfl⟩, rfl,
        hends⟩
  | @wrapper ended closed node inner hname hnode htoken _ ih =>
      have hcollapsible := not_isCollapsible_of_wrapper hname
      have hchildren : node.collapse.children = [inner.collapse] := by
        rw [children_collapse hcollapsible, hnode, List.map_cons, List.map_nil]
      have hmajor := is_collapse hcollapsible Kind.isMajor
      rw [unwrap_of_phrase hname hnode htoken,
        unwrap_of_phrase (name_collapse hcollapsible ▸ hname) hchildren
          ((isToken_collapse inner).trans htoken)]
      rcases ih with ⟨hclosed, hdrop⟩ | hstay
      · refine .inl ⟨hclosed, hdrop.exists_block, hdrop.terminator_eq_none, ?_⟩
        rw [endsLineAmong, List.any_cons, hmajor, ← Bool.or_assoc]
        exact hdrop.endsLine
      · refine .inr ⟨hstay.framed, hstay.inner_eq, hstay.terminator_eq, ?_⟩
        rw [endsLineAmong, endsLineAmong, List.any_cons, List.any_cons, hmajor]
        exact congrArg (node.is Kind.isMajor || ·) hstay.endsLine_eq
  | @closed ended closed node inner semicolon hname hnode htoken hsemicolon _ ih =>
      have hcollapsible := not_isCollapsible_of_wrapper hname
      have hchildren : node.collapse.children = [inner.collapse, semicolon] := by
        rw [children_collapse hcollapsible, hnode, List.map_cons, List.map_cons, List.map_nil,
          collapse_of_isToken (isToken_of_isLexeme hsemicolon)]
      have hmajor := is_collapse hcollapsible Kind.isMajor
      rw [unwrap_of_ended hname hnode htoken hsemicolon,
        unwrap_of_ended (name_collapse hcollapsible ▸ hname) hchildren
          ((isToken_collapse inner).trans htoken) hsemicolon]
      rcases ih with ⟨hclosed, -⟩ | hstay
      · cases hclosed
      · refine .inr ⟨hstay.framed, hstay.inner_eq, rfl, ?_⟩
        rw [endsLineAmong, endsLineAmong, List.any_cons, List.any_cons, hmajor]
        exact congrArg (node.is Kind.isMajor || ·) hstay.endsLine_eq
  | @phrase ended closed node size hsize hcollapsible hcollapsible' hfront hback _ =>
      have hname := not_isWrapperName_of_frontSize hsize
      rw [unwrap_of_not_wrapper hname,
        unwrap_of_not_wrapper ((congrArg _ (name_collapse hcollapsible)).trans hname)]
      refine .inr ⟨⟨hcollapsible, hcollapsible', ?_, ?_, ?_⟩, rfl, rfl, rfl⟩
      · intro hnone
        cases hnone.symm.trans hsize
      · intro other hother
        cases hother.symm.trans hsize
        exact hfront
      · intro other hother
        cases hother.symm.trans hsize
        exact hback

theorem mem_take_or_mem_drop {α : Type} {a : α} {l : List α} (n : Nat) (h : a ∈ l) :
    a ∈ l.take n ∨ a ∈ l.drop n := by
  rw [← List.take_append_drop n l, List.mem_append] at h
  exact h

/-- When the blocks in a settled node have been dropped, no block is left that can be dropped. -/
theorem Settled.collapse_collapse {ended closed : Bool} {node : Node}
    (h : Settled ended closed node) : node.collapse.collapse = node.collapse := by
  induction h with
  | fixed h => rw [h, h]
  | dropped hcollapsible hnode hstatement _ _ =>
      rw [collapse_of_isCollapsible hcollapsible hnode, hstatement, hstatement]
  | wrapper hname hnode _ _ ih =>
      have hcollapsible := not_isCollapsible_of_wrapper hname
      refine collapse_eq_self (not_isCollapsible_of_wrapper ?_) fun child hchild => ?_
      · rwa [name_collapse hcollapsible]
      · rw [children_collapse hcollapsible, hnode, List.map_singleton,
          List.mem_singleton] at hchild
        rw [hchild, ih]
  | closed hname hnode _ hsemicolon _ ih =>
      have hcollapsible := not_isCollapsible_of_wrapper hname
      have hend := collapse_of_isToken (isToken_of_isLexeme hsemicolon)
      refine collapse_eq_self (not_isCollapsible_of_wrapper ?_) fun child hchild => ?_
      · rwa [name_collapse hcollapsible]
      · rw [children_collapse hcollapsible, hnode, List.map_cons, List.map_singleton, hend,
          List.mem_cons, List.mem_singleton] at hchild
        rcases hchild with rfl | rfl
        · exact ih
        · exact hend
  | @phrase _ _ _ size _ hcollapsible hcollapsible' hfront _ ih =>
      refine collapse_eq_self hcollapsible' fun child hchild => ?_
      rw [children_collapse hcollapsible] at hchild
      obtain ⟨inner, hinner, rfl⟩ := List.mem_map.1 hchild
      rcases mem_take_or_mem_drop size hinner with hinner | hinner
      · rw [hfront inner hinner, hfront inner hinner]
      · exact ih inner hinner

/-! ## What a layout asks of a statement -/

/-- The statement of a block that is dropped is an assignment. -/
theorem Drop.isSimpleAssignment {ended : Bool} {before after : Unwrapped}
    (h : Drop ended before after) : after.inner.is Kind.isSimpleAssignment := by
  obtain ⟨first, statement, last, hcollapsible, hchildren, -, hinner, -⟩ := h.exists_block
  obtain ⟨-, _, _, _, hchildren', -, -, -, hassignment⟩ := of_isCollapsible hcollapsible
  cases hchildren.symm.trans hchildren'
  rw [hinner]
  exact hassignment

/-- A block that is dropped is of a kind of its own. -/
theorem Drop.is_before {ended : Bool} {before after : Unwrapped} (h : Drop ended before after)
    (p : Kind → Bool) : before.inner.is p = p .seqBlock := by
  obtain ⟨_, _, _, hcollapsible, -⟩ := h.exists_block
  rw [is, (of_isCollapsible hcollapsible).1, Option.any_some]

/-- What the kinds of assignments agree on holds of each assignment. -/
theorem is_eq_of_isSimpleAssignment {node : Node} (h : node.is Kind.isSimpleAssignment)
    {p : Kind → Bool} {b : Bool} (hblocking : p .blockingAssignment = b)
    (hnonblocking : p .nonblockingAssignment = b) : node.is p = b := by
  rw [is, Option.any_eq_true] at h
  obtain ⟨kind, hkind, hassignment⟩ := h
  rw [is, hkind, Option.any_some]
  cases kind <;> first | exact hblocking | exact hnonblocking | cases hassignment

/-- A layout that takes blocks for assignments sees no difference. -/
theorem Settled.is_unwrap_collapse {ended closed : Bool} {node : Node}
    (h : Settled ended closed node) {p : Kind → Bool}
    (hblocking : p .blockingAssignment = p .seqBlock)
    (hnonblocking : p .nonblockingAssignment = p .seqBlock) :
    node.collapse.unwrap.inner.is p = node.unwrap.inner.is p := by
  rcases h.unwrap with ⟨-, hdrop⟩ | hstay
  · rw [hdrop.is_before]
    exact is_eq_of_isSimpleAssignment hdrop.isSimpleAssignment hblocking hnonblocking
  · rw [hstay.inner_eq, is_collapse hstay.framed.not_isCollapsible]

/-- A node is of a kind if that is its kind. -/
theorem is_eq_kind {node : Node} {kind : Kind} : node.is (· = kind) ↔ node.kind? = some kind := by
  simp [is, Option.any_eq_true]

/-- Collapsing a settled node keeps its kind, if that is no block and no assignment. -/
theorem Settled.kind?_unwrap_collapse {ended closed : Bool} {node : Node}
    (h : Settled ended closed node) {kind : Kind} (hblock : kind ≠ .seqBlock)
    (hassignment : kind.isSimpleAssignment = false) :
    node.collapse.unwrap.inner.kind? = some kind ↔ node.unwrap.inner.kind? = some kind := by
  have hne : ∀ other : Kind, other.isSimpleAssignment → other ≠ kind := by
    rintro other hother rfl
    rw [hassignment] at hother
    cases hother
  rw [← is_eq_kind, ← is_eq_kind, h.is_unwrap_collapse]
  · simp [hne .blockingAssignment rfl, Ne.symm hblock]
  · simp [hne .nonblockingAssignment rfl, Ne.symm hblock]

/-- A phrase that is written as it stands is not changed. -/
theorem Settled.collapse_eq {ended closed : Bool} {node : Node} (h : Settled ended closed node)
    (hsize : node.frontSize? = none) (hwrapper : isWrapperName node.name = false)
    (hcollapsible : node.isCollapsible = false) : node.collapse = node := by
  cases h with
  | fixed h => exact h
  | dropped h => cases hcollapsible.symm.trans h
  | wrapper h => cases hwrapper.symm.trans h
  | closed h => cases hwrapper.symm.trans h
  | phrase h => cases hsize.symm.trans h

/-- A node becomes one of another kind only if it is a block that is dropped. -/
theorem Settled.kind?_collapse {ended closed : Bool} {node : Node}
    (h : Settled ended closed node) {kind : Kind} (hblock : kind ≠ .seqBlock)
    (hassignment : kind.isSimpleAssignment = false) (hwrapper : kind.isWrapper = false) :
    node.collapse.kind? = some kind ↔ node.kind? = some kind := by
  cases hcollapsible : node.isCollapsible with
  | false => rw [Node.kind?_collapse hcollapsible]
  | true =>
      have hkind := (of_isCollapsible hcollapsible).1
      have hunwrap : node.unwrap = { inner := node } :=
        unwrap_of_not_wrapper ((isWrapperName_eq hkind).trans rfl)
      have hiff := h.kind?_unwrap_collapse hblock hassignment
      rw [hunwrap] at hiff
      refine ⟨fun heq => hiff.1 ?_, fun heq => absurd (hkind.symm.trans heq) ?_⟩
      · rw [unwrap_of_not_wrapper ((isWrapperName_eq heq).trans hwrapper)]
        exact heq
      · exact fun heq => hblock (Option.some.inj heq).symm

/-! ## Words -/

theorem mem_tokens_of_mem {node child token : Node} (hchild : child ∈ node.children)
    (h : token ∈ child.tokens) : token ∈ node.tokens := by
  obtain ⟨name, value, children, leading, trailing⟩ := node
  have hall : ∀ nodes : List Node, child ∈ nodes → token ∈ tokensAll nodes := by
    intro nodes
    induction nodes with
    | nil => exact nofun
    | cons first rest ih =>
        intro hmem
        rw [tokensAll, List.mem_append]
        rcases List.mem_cons.1 hmem with rfl | hmem
        · exact .inl h
        · exact .inr (ih hmem)
  unfold tokens
  split
  · cases hchild
  · exact hall _ hchild

/-- A node has a word if one of its children does. -/
theorem HasWord.of_mem {node child : Node} (hchild : child ∈ node.children) (h : child.HasWord) :
    node.HasWord := by
  obtain ⟨token, htoken, hne⟩ := h
  exact ⟨token, mem_tokens_of_mem hchild htoken, hne⟩

/-- A node with a word is no empty statement. -/
theorem HasWord.lexemes_ne {node : Node} (h : node.HasWord) :
    node.tokens.map lexeme ≠ [(";" : Text)] := by
  intro heq
  obtain ⟨token, htoken, hne⟩ := h
  have hmem := List.mem_map_of_mem (f := lexeme) htoken
  rw [heq] at hmem
  exact hne (List.mem_singleton.1 hmem)

/-- A node that is changed has a word before and after. -/
def SameOrWord (node : Node) : Prop :=
  node.collapse = node ∨ (node.HasWord ∧ node.collapse.HasWord)

/-- A node that is not dropped stays the same or has a word, if its children do. -/
theorem sameOrWord_of_children {node : Node} (hcollapsible : node.isCollapsible = false)
    (h : ∀ child ∈ node.children, child.SameOrWord) : node.SameOrWord := by
  by_cases hall : ∀ child ∈ node.children, child.collapse = child
  · exact .inl (collapse_eq_self hcollapsible hall)
  · obtain ⟨child, hchild, hne⟩ : ∃ child ∈ node.children, child.collapse ≠ child := by
      simpa using hall
    obtain ⟨hword, hword'⟩ := (h child hchild).resolve_left hne
    refine .inr ⟨hword.of_mem hchild, hword'.of_mem ?_⟩
    rw [children_collapse hcollapsible]
    exact List.mem_map_of_mem hchild

/-- A settled node is changed only where it has words. -/
theorem Settled.sameOrWord {ended closed : Bool} {node : Node} (h : Settled ended closed node) :
    node.SameOrWord := by
  induction h with
  | fixed h => exact .inl h
  | @dropped ended node first statement last hcollapsible hnode hstatement hword _ =>
      refine .inr ⟨hword.of_mem (by simp [hnode]), ?_⟩
      rw [collapse_of_isCollapsible hcollapsible hnode, hstatement]
      exact hword
  | wrapper hname hnode _ _ ih =>
      refine sameOrWord_of_children (not_isCollapsible_of_wrapper hname) fun child hchild => ?_
      rw [hnode, List.mem_singleton] at hchild
      rw [hchild]
      exact ih
  | closed hname hnode _ hsemicolon _ ih =>
      refine sameOrWord_of_children (not_isCollapsible_of_wrapper hname) fun child hchild => ?_
      rw [hnode, List.mem_cons, List.mem_singleton] at hchild
      rcases hchild with rfl | rfl
      · exact ih
      · exact .inl (collapse_of_isToken (isToken_of_isLexeme hsemicolon))
  | @phrase _ _ _ size _ hcollapsible _ hfront _ ih =>
      refine sameOrWord_of_children hcollapsible fun child hchild => ?_
      rcases mem_take_or_mem_drop size hchild with hchild | hchild
      · exact .inl (hfront child hchild)
      · exact ih child hchild

/-- A node that keeps its frame stays the same or has a word. -/
theorem Framed.sameOrWord {inner : Node} (h : Framed inner) : inner.SameOrWord := by
  cases hsize : inner.frontSize? with
  | none => exact .inl (h.fixed hsize)
  | some size =>
      refine sameOrWord_of_children h.not_isCollapsible fun child hchild => ?_
      rcases mem_take_or_mem_drop size hchild with hchild | hchild
      · exact .inl (h.front size hsize child hchild)
      · exact (h.back size hsize child hchild).sameOrWord

/-- A statement that fits on the line of its header still does. -/
theorem Settled.isSimple_collapse {ended closed : Bool} {node : Node}
    (h : Settled ended closed node) : node.collapse.isSimple = node.isSimple := by
  rw [isSimple, isSimple]
  rcases h.unwrap with ⟨-, hdrop⟩ | hstay
  · obtain ⟨_, _, _, hcollapsible, -⟩ := hdrop.exists_block
    rw [hdrop.isSimpleAssignment, hcollapsible, Bool.true_or, Bool.true_or, Bool.or_true,
      Bool.true_or]
  · rw [hstay.inner_eq, is_collapse hstay.framed.not_isCollapsible,
      hstay.framed.not_isCollapsible, hstay.framed.not_isCollapsible_collapse]
    rcases hstay.framed.sameOrWord with hsame | ⟨hword, hword'⟩
    · rw [hsame]
    · simp only [hword.lexemes_ne, hword'.lexemes_ne]

end Node
end VerilogLayout

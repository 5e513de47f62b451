import Mathlib.Data.List.Chain
import VerilogLayout.Proofs.Procedural.Grammar

/-!
# What wrappers hold

A node `Wraps` another if it holds that phrase and at most a semicolon behind it. Unwrapping goes
down such nodes as far as there are any, so everything about it is an induction along them,
`byWrappers`. `unwrap_keeps` is the result: the leaves of a node are those of the phrase and the
semicolons of its wrappers, and the phrase and its terminator have all tokens if and only if there
is at most one semicolon.
-/

namespace VerilogLayout.Node

/-- The semicolons among the children of a node. -/
def semicolons (node : Node) : List Node :=
  node.children.filter (isLexeme ";")

/-- The semicolons of wrappers in their order. -/
def semicolonsOf (wrappers : List Node) : List Node :=
  wrappers.flatMap semicolons

/-- `Wraps outer inner` says that `outer` is a wrapper, `inner` is the phrase in it, and at most a
semicolon stands behind that. -/
structure Wraps (outer inner : Node) : Prop where
  wrapper : isWrapperName outer.name
  phrase : inner.isToken = false
  children : outer.children = inner :: outer.semicolons
  atMostOne : outer.semicolons.length ≤ 1

/-- No phrase is wrapped by the node. -/
def IsInnermost (node : Node) : Prop :=
  ∀ inner, ¬ Wraps node inner

namespace Wraps

variable {outer inner : Node}

theorem mem (h : Wraps outer inner) : inner ∈ outer.children := by
  rw [h.children]
  exact List.mem_cons_self

theorem single (hwrapper : isWrapperName outer.name) (hphrase : inner.isToken = false)
    (hchildren : outer.children = [inner]) : Wraps outer inner := by
  have hnone : outer.semicolons = [] := by
    rw [semicolons, hchildren, List.filter_cons_of_neg (by simp [isLexeme, hphrase])]
    rfl
  exact ⟨hwrapper, hphrase, by rw [hnone, hchildren], by simp [hnone]⟩

/-- A wrapper around a child and its semicolon wraps the child. -/
theorem ended {semicolon : Node} (hwrapper : isWrapperName outer.name)
    (hphrase : inner.isToken = false) (hchildren : outer.children = [inner, semicolon])
    (hsemicolon : semicolon.isLexeme ";") : Wraps outer inner := by
  have hone : outer.semicolons = [semicolon] := by
    rw [semicolons, hchildren, List.filter_cons_of_neg (by simp [isLexeme, hphrase]),
      List.filter_cons_of_pos hsemicolon]
    rfl
  exact ⟨hwrapper, hphrase, by rw [hone, hchildren], by simp [hone]⟩

/-- A wrapper is taken away, and its semicolon goes before those inside. -/
theorem unwrap_eq (h : Wraps outer inner) :
    outer.unwrap =
      { inner := inner.unwrap.inner
        terminator := outer.semicolons.head?.or inner.unwrap.terminator
        wrappers := outer :: inner.unwrap.wrappers } := by
  have hchildren := h.children
  have hone := h.atMostOne
  cases hsemicolons : outer.semicolons with
  | nil =>
      rw [hsemicolons] at hchildren
      exact unwrap_of_phrase h.wrapper hchildren h.phrase
  | cons semicolon rest =>
      rw [hsemicolons] at hchildren hone
      obtain rfl : rest = [] := by simpa using hone
      have hsemicolon : semicolon ∈ outer.semicolons := by
        rw [hsemicolons]
        exact List.mem_cons_self
      exact unwrap_of_ended h.wrapper hchildren h.phrase (List.mem_filter.1 hsemicolon).2

end Wraps

/-- A node that wraps no phrase stays. -/
theorem IsInnermost.unwrap_eq {node : Node} (h : node.IsInnermost) :
    node.unwrap = { inner := node } := by
  fun_cases unwrap node with
  | case1 name value inner leading trailing hwrapper =>
      rw [Bool.and_eq_true, Bool.not_eq_true'] at hwrapper
      exact absurd (.single hwrapper.1 hwrapper.2 rfl) (h inner)
  | case3 name value inner last leading trailing hwrapper =>
      simp only [Bool.and_eq_true, Bool.not_eq_true'] at hwrapper
      exact absurd (.ended hwrapper.1.1 hwrapper.1.2 rfl hwrapper.2) (h inner)
  | case2 | case4 | case5 => rfl

/-- Induction along wrappers. -/
theorem byWrappers {motive : Node → Prop} (innermost : ∀ node, node.IsInnermost → motive node)
    (wrapped : ∀ outer inner, Wraps outer inner → motive inner → motive outer) (node : Node) :
    motive node := by
  by_cases h : node.IsInnermost
  · exact innermost node h
  · obtain ⟨inner, hwraps⟩ := not_forall_not.1 h
    -- The phrase is a child of its wrapper, so the way down ends.
    have hlower := height_lt_of_mem hwraps.mem
    exact wrapped node inner hwraps (byWrappers innermost wrapped inner)
termination_by node.height

/-! ## The phrase inside -/

/-- What is left after unwrapping wraps nothing. -/
theorem isInnermost_unwrap (node : Node) : node.unwrap.inner.IsInnermost := by
  induction node using byWrappers with
  | innermost node h =>
      rw [h.unwrap_eq]
      exact h
  | wrapped outer inner h ih =>
      rw [h.unwrap_eq]
      exact ih

/-- The wrappers go down from the node to the phrase. -/
theorem isChain_unwrap (node : Node) :
    (node.unwrap.wrappers ++ [node.unwrap.inner]).head? = some node ∧
      (node.unwrap.wrappers ++ [node.unwrap.inner]).IsChain fun outer inner =>
        Wraps outer inner ∧ inner.height < outer.height := by
  induction node using byWrappers with
  | innermost node h =>
      rw [h.unwrap_eq]
      exact ⟨rfl, List.isChain_singleton _⟩
  | wrapped outer inner h ih =>
      rw [h.unwrap_eq]
      refine ⟨rfl, List.isChain_cons.2 ⟨?_, ih.2⟩⟩
      intro next hnext
      replace hnext : next ∈ (inner.unwrap.wrappers ++ [inner.unwrap.inner]).head? := hnext
      rw [ih.1] at hnext
      cases hnext
      exact ⟨h, height_lt_of_mem h.mem⟩

/-- Of the semicolons of the wrappers, the outermost is the terminator. -/
theorem terminator_unwrap (node : Node) :
    node.unwrap.terminator = (semicolonsOf node.unwrap.wrappers).head? := by
  induction node using byWrappers with
  | innermost node h =>
      rw [h.unwrap_eq]
      rfl
  | wrapped outer inner h ih =>
      rw [h.unwrap_eq, semicolonsOf, List.flatMap_cons, List.head?_append, ← semicolonsOf, ih]

/-! ## Leaves and tokens -/

mutual
/-- The tokens are the leaves that have a lexeme. -/
theorem tokens_eq_filter : (node : Node) → node.tokens = node.leaves.filter isToken
  | ⟨name, none, [], leading, trailing⟩ => by simp [tokens, tokensAll, leaves, isToken]
  | ⟨name, some lexeme, [], leading, trailing⟩ => by simp [tokens, leaves, isToken]
  | ⟨name, value, child :: children, leading, trailing⟩ => by
      rw [leaves_of_children_ne_nil (List.cons_ne_nil child children),
        ← tokensAll_eq_filter (child :: children)]
      cases value <;> simp [tokens]

/-- The tokens of nodes are those of their leaves that are tokens. -/
theorem tokensAll_eq_filter : (nodes : List Node) →
    tokensAll nodes = (leavesAll nodes).filter isToken
  | [] => rfl
  | node :: nodes => by
      rw [tokensAll, leavesAll, List.filter_append, tokens_eq_filter node,
        tokensAll_eq_filter nodes]
end

/-- Tokens are their own leaves. -/
theorem leavesAll_eq_self {nodes : List Node} (h : ∀ node ∈ nodes, node.isToken) :
    leavesAll nodes = nodes := by
  induction nodes with
  | nil => rfl
  | cons node rest ih =>
      obtain ⟨hnode, hrest⟩ := List.forall_mem_cons.1 h
      rw [leavesAll, leaves_of_isToken hnode, ih hrest]
      rfl

theorem isToken_of_mem_semicolons (node : Node) :
    ∀ semicolon ∈ node.semicolons, semicolon.isToken :=
  fun _ hmem => isToken_of_isLexeme (List.mem_filter.1 hmem).2

/-- The semicolons of wrappers are tokens. -/
theorem isToken_of_mem_semicolonsOf (wrappers : List Node) :
    ∀ semicolon ∈ semicolonsOf wrappers, semicolon.isToken := by
  intro semicolon hmem
  obtain ⟨wrapper, -, hsemicolon⟩ := List.mem_flatMap.1 hmem
  exact isToken_of_mem_semicolons wrapper semicolon hsemicolon

/-- A wrapper adds its semicolon to the leaves of the phrase. -/
theorem Wraps.leaves_eq {outer inner : Node} (h : Wraps outer inner) :
    outer.leaves = inner.leaves ++ outer.semicolons := by
  have hne : outer.children ≠ [] := List.ne_nil_of_mem h.mem
  rw [leaves_of_children_ne_nil hne, h.children, leavesAll,
    leavesAll_eq_self (isToken_of_mem_semicolons outer)]

/-- The wrappers add their semicolons to the leaves of the phrase, the innermost first. -/
theorem leaves_unwrap (node : Node) :
    node.leaves = node.unwrap.inner.leaves ++ (semicolonsOf node.unwrap.wrappers).reverse := by
  induction node using byWrappers with
  | innermost node h =>
      rw [h.unwrap_eq]
      exact (List.append_nil _).symm
  | wrapped outer inner h ih =>
      -- A wrapper has one semicolon at most, so its own need no turning round.
      have hone : outer.semicolons.reverse = outer.semicolons := by
        have hlength := h.atMostOne
        match outer.semicolons, hlength with
        | [], _ | [_], _ => rfl
      rw [h.unwrap_eq, semicolonsOf, List.flatMap_cons, List.reverse_append, ← semicolonsOf, hone,
        ← List.append_assoc, ← ih, h.leaves_eq]

/-- Unwrapping takes the semicolons from the end of the tokens. -/
theorem tokens_unwrap (node : Node) :
    node.tokens = node.unwrap.inner.tokens ++ (semicolonsOf node.unwrap.wrappers).reverse := by
  rw [tokens_eq_filter, tokens_eq_filter, leaves_unwrap, List.filter_append,
    List.filter_eq_self.2 fun semicolon hmem =>
      isToken_of_mem_semicolonsOf _ semicolon (List.mem_reverse.1 hmem)]

/-- Unwrapping goes from the node down a chain of wrappers, each around the next, to a node that
wraps no phrase. The leaves of the node are those of the one inside and the semicolons of the
wrappers, the innermost first; the terminator is the outermost semicolon, so the node inside and the
terminator have all tokens if and only if there is at most one. -/
theorem unwrap_keeps (node : Node) :
    node.unwrap.inner.IsInnermost ∧
      node.unwrap.inner.unwrap = { inner := node.unwrap.inner } ∧
      (node.unwrap.wrappers ++ [node.unwrap.inner]).head? = some node ∧
      ((node.unwrap.wrappers ++ [node.unwrap.inner]).IsChain fun outer inner =>
        Wraps outer inner ∧ inner.height < outer.height) ∧
      node.leaves = node.unwrap.inner.leaves ++ (semicolonsOf node.unwrap.wrappers).reverse ∧
      node.tokens = node.unwrap.inner.tokens ++ (semicolonsOf node.unwrap.wrappers).reverse ∧
      node.unwrap.terminator = (semicolonsOf node.unwrap.wrappers).head? ∧
      (node.tokens = node.unwrap.inner.tokens ++ node.unwrap.terminator.toList ↔
        (semicolonsOf node.unwrap.wrappers).length ≤ 1) := by
  obtain ⟨hhead, hchain⟩ := isChain_unwrap node
  have hinner := isInnermost_unwrap node
  refine ⟨hinner, hinner.unwrap_eq, hhead, hchain, leaves_unwrap node, tokens_unwrap node,
    terminator_unwrap node, ?_⟩
  rw [tokens_unwrap node, terminator_unwrap node, List.append_cancel_left_eq]
  constructor
  · intro hall
    have hlength := congrArg List.length hall
    rw [List.length_reverse] at hlength
    rw [hlength]
    exact Option.length_toList_le
  · intro hlength
    match semicolonsOf node.unwrap.wrappers, hlength with
    | [], _ | [_], _ => rfl

end VerilogLayout.Node

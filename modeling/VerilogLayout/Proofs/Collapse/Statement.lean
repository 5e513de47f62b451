import VerilogLayout.Proofs.Collapse.Settled

/-!
# Statements around blocks that are dropped

Two formatters agree if the one writes a settled node as the other writes it without the blocks
that are dropped. Every renderer of statements writes the same then, whichever of the two it is
given: read `body_collapse` first, since most of them leave the place of a block to `body`.
-/

namespace VerilogLayout.Render

open Node

/-- A node without comments that two fuels are enough for, before and after blocks are dropped. -/
structure Inside (n n' : Nat) (node : Node) : Prop where
  plain : node.Plain
  height_le : node.height ≤ n
  height_collapse_le : node.collapse.height ≤ n'

/-- A statement that two formatters write in the place of a statement. -/
structure Laid (n n' : Nat) (node : Node) : Prop extends Inside n n' node where
  settled : Settled false false node

/-- A phrase around such statements. -/
structure Around (n n' : Nat) (inner : Node) : Prop extends Inside (n + 1) (n' + 1) inner where
  framed : Framed inner

/-- What the first formatter writes, the second writes without the blocks that are dropped. -/
def Agrees (format format' : Formatter) (n n' : Nat) : Prop :=
  ∀ {node : Node} {given : Option Node}, Inside n n' node → Settled false given.isSome node →
    (∀ token ∈ given, token.Plain) → ∀ level,
      format node level given = format' node.collapse level given

/-- Collapsing a node inside leaves it without comments. -/
theorem Inside.plain_collapse {n n' : Nat} {node : Node} (h : Inside n n' node) :
    node.collapse.Plain :=
  within_collapse h.plain

/-- The child of a node inside is inside as well. -/
theorem Inside.child {n n' : Nat} {node child : Node} (h : Inside (n + 1) (n' + 1) node)
    (hcollapsible : node.isCollapsible = false) (hmem : child ∈ node.children) :
    Inside n n' child := by
  have hmem' : child.collapse ∈ node.collapse.children := by
    rw [children_collapse hcollapsible]
    exact List.mem_map_of_mem hmem
  have hlt := height_lt_of_mem hmem
  have hlt' := height_lt_of_mem hmem'
  have hle := h.height_le
  have hle' := h.height_collapse_le
  exact ⟨Within.children h.plain child hmem, by omega, by omega⟩

namespace Around

variable {n n' : Nat} {inner : Node} (h : Around n n' inner)
include h

theorem children_collapse : inner.collapse.children = inner.children.map collapse :=
  Node.children_collapse h.framed.not_isCollapsible

/-- The node around keeps its kind. -/
theorem kind?_collapse : inner.collapse.kind? = inner.kind? :=
  Node.kind?_collapse h.framed.not_isCollapsible

/-- What stands behind the front of a phrase are statements. -/
theorem laid {size : Nat} (hsize : inner.frontSize? = some size) {child : Node}
    (hchild : child ∈ inner.children.drop size) : Laid n n' child where
  toInside := h.child h.framed.not_isCollapsible (List.mem_of_mem_drop hchild)
  settled := h.framed.back size hsize child hchild

/-- What stands in the front of a phrase is not changed. -/
theorem map_take {size m : Nat} (hsize : inner.frontSize? = some size) (hm : m ≤ size) :
    (inner.children.take m).map collapse = inner.children.take m := by
  have hfixed : ∀ child ∈ inner.children.take m, child.collapse = child := fun child hchild =>
    h.framed.front size hsize child (List.take_subset_take_left _ hm hchild)
  rw [List.map_congr_left hfixed, List.map_id']

/-- A phrase is not changed if it has no statements. -/
theorem collapse_eq {size : Nat} (hsize : inner.frontSize? = some size)
    (hdrop : inner.children.drop size = []) : inner.collapse = inner := by
  refine collapse_eq_self h.framed.not_isCollapsible fun child hchild => ?_
  rcases mem_take_or_mem_drop size hchild with hchild | hchild
  · exact h.framed.front size hsize child hchild
  · rw [hdrop] at hchild
    cases hchild

end Around

/-- The phrase of a statement, unless it is a block that is dropped. -/
theorem Laid.around {n n' : Nat} {node : Node} (h : Laid n n' node)
    (hstay : Stay node.unwrap node.collapse.unwrap) : Around n n' node.unwrap.inner where
  plain := (within_unwrap h.plain).1
  height_le := Nat.le_succ_of_le (Nat.le_trans (height_unwrap_le node) h.height_le)
  height_collapse_le := by
    rw [← hstay.inner_eq]
    exact Nat.le_succ_of_le (Nat.le_trans (height_unwrap_le _) h.height_collapse_le)
  framed := hstay.framed

variable {format format' : Formatter} {n n' : Nat} (hagree : Agrees format format' n n')

/-- Collapsing keeps what opens a block. -/
theorem opensBlock_collapse {node : Node} (h : node.isCollapsible = false) :
    node.collapse.opensBlock = node.opensBlock := by
  rw [opensBlock, opensBlock, is_collapse h, children_collapse h, head?_any_isLexeme_collapse]

include hagree

/-- A statement that is laid out is formatted alike when it is collapsed. -/
theorem Agrees.statement {node : Node} (h : Laid n n' node) (level : Int) :
    format node level none = format' node.collapse level none :=
  @hagree node none h.toInside h.settled (by simp) level

/-- Items that are laid out are written alike when they are collapsed. -/
theorem items_collapse {nodes : List Node} (h : ∀ node ∈ nodes, Laid n n' node) (level : Int) :
    items format level nodes = items format' level (nodes.map collapse) := by
  induction nodes with
  | nil => rfl
  | cons node rest ih =>
      obtain ⟨hnode, hrest⟩ := List.forall_mem_cons.1 h
      rw [List.map_cons, items, items, hagree.statement hnode, ih hrest]

/-- A statement on the line of its label is written alike when it is collapsed. -/
theorem inlineStatement_collapse {statement : Node} (h : Laid n n' statement) (level : Int) :
    inlineStatement format statement level = inlineStatement format' statement.collapse level := by
  rw [inlineStatement, inlineStatement, hagree.statement h]

omit hagree

/-! ## Blocks and bodies -/

/-- Collapsing keeps the block apart from what stands in front. -/
theorem splitBlock_collapse (children : List Node) :
    splitBlock (children.map collapse) =
      ((splitBlock children).1.map collapse, (splitBlock children).2.map collapse) := by
  unfold splitBlock
  dsimp only
  rw [← List.map_drop, List.getLast?_map]
  cases (children.drop 1).getLast? with
  | none => rfl
  | some last =>
      dsimp only [Option.map_some]
      rw [isLexeme_collapse]
      split
      · rw [List.map_dropLast]
        rfl
      · rfl

/-- Collapsing keeps the label apart from the statements. -/
theorem splitLabel_collapse (nodes : List Node) :
    splitLabel (nodes.map collapse) =
      ((splitLabel nodes).1.map collapse, (splitLabel nodes).2.map collapse) := by
  cases nodes with
  | nil => rfl
  | cons first rest =>
      rw [List.map_cons, splitLabel, splitLabel, isLexeme_collapse]
      split
      · rw [← List.map_cons, ← List.map_take, ← List.map_drop]
      · rfl

/-- The statements of a block are collapsed one by one. -/
theorem blockStatements_collapse {inner : Node} (h : inner.isCollapsible = false) :
    blockStatements inner.collapse = (blockStatements inner).map collapse := by
  rw [blockStatements, blockStatements, children_collapse h, splitBlock_collapse,
    splitLabel_collapse]

/-- The label of a block is collapsed with it. -/
theorem blockLabel_collapse {inner : Node} (h : inner.isCollapsible = false) :
    blockLabel inner.collapse = (blockLabel inner).map collapse := by
  rw [blockLabel, blockLabel, children_collapse h, splitBlock_collapse, splitLabel_collapse]

/-- Splitting at the label loses nothing. -/
theorem splitLabel_append_eq (nodes : List Node) :
    (splitLabel nodes).1 ++ (splitLabel nodes).2 = nodes := by
  unfold splitLabel
  split
  · split
    · exact List.take_append_drop _ _
    · rfl
  · rfl

/-- A block is its keyword, its label, its statements and perhaps its last word. -/
theorem children_drop_one (inner : Node) :
    ∃ close : List Node,
      inner.children.drop 1 = blockLabel inner ++ blockStatements inner ++ close := by
  rw [blockLabel, blockStatements, splitLabel_append_eq]
  unfold splitBlock
  dsimp only
  cases hlast : (inner.children.drop 1).getLast? with
  | none => exact ⟨[], (List.append_nil _).symm⟩
  | some last =>
      obtain ⟨rest, hrest⟩ := List.getLast?_eq_some_iff.1 hlast
      rw [hrest, List.dropLast_concat]
      dsimp only
      split
      · exact ⟨[last], rfl⟩
      · exact ⟨[], (List.append_nil _).symm⟩

include hagree

/-- A block writes the same whether the blocks in it are dropped or not. -/
theorem block_collapse {inner : Node} (h : Around n n' inner)
    (hsize : inner.frontSize? = some ((blockLabel inner).length + 1)) (level : Int) :
    block format inner level [] [] = block format' inner.collapse level [] [] := by
  obtain ⟨close, hdrop⟩ := children_drop_one inner
  have hlabel : blockLabel inner.collapse = blockLabel inner := by
    have hfront : blockLabel inner =
        (inner.children.take ((blockLabel inner).length + 1)).drop 1 := by
      rw [List.drop_take, hdrop, List.append_assoc, Nat.add_sub_cancel, List.take_left]
    rw [blockLabel_collapse h.framed.not_isCollapsible, hfront, List.map_drop,
      h.map_take hsize (Nat.le_refl _)]
  have hstatements : ∀ statement ∈ blockStatements inner, Laid n n' statement := by
    intro statement hmem
    refine h.laid hsize ?_
    rw [Nat.add_comm, ← List.drop_drop, hdrop, List.append_assoc, List.drop_left]
    exact List.mem_append_left _ hmem
  have htitle : blockTitle inner.collapse = blockTitle inner := by
    rw [blockTitle, blockTitle, hlabel]
  rw [block_plain format h.plain, block_plain format' h.plain_collapse, htitle,
    blockStatements_collapse h.framed.not_isCollapsible, items_collapse hagree hstatements,
    h.children_collapse]
  cases inner.children with
  | nil => rfl
  | cons first rest => rfl

omit hagree in
/-- The front of a block is its first token and its label. -/
theorem frontSize_of_opensBlock {inner : Node} (h : inner.opensBlock) :
    inner.frontSize? = some ((blockLabel inner).length + 1) := by
  have hopens := h
  rw [opensBlock, is, Bool.and_eq_true, Option.any_eq_true] at h
  obtain ⟨⟨kind, hkind, hblock⟩, -⟩ := h
  rw [frontSize?, hkind]
  cases kind <;> first | rfl | exact congrArg some (if_pos hopens) | cases hblock

/-- What follows a header is the same whether a block behind it is dropped or not. -/
theorem body_collapse {statement : Node} (h : Laid n n' statement) (level : Int) :
    body format statement level [] = body format' statement.collapse level [] := by
  rcases h.settled.unwrap with ⟨-, hdrop⟩ | hstay
  · obtain ⟨_, _, _, hcollapsible, -⟩ := hdrop.exists_block
    have hblock' : statement.collapse.unwrap.inner.opensBlock = false := by
      have hkind : statement.collapse.unwrap.inner.is Kind.isBlock = false :=
        is_eq_of_isSimpleAssignment hdrop.isSimpleAssignment rfl rfl
      rw [opensBlock, hkind, Bool.false_and]
    rw [body_of_not_block format (by simp [hcollapsible]),
      body_of_not_block format' (by simp [hblock']), hagree.statement h]
  · have haround := h.around hstay
    have hopens := opensBlock_collapse hstay.framed.not_isCollapsible
    cases hblock : statement.unwrap.inner.opensBlock with
    | true =>
        rw [body_of_block format h.plain (by simp [hblock, hstay.framed.not_isCollapsible]),
          body_of_block format' h.plain_collapse
            (by simp [hstay.inner_eq, hopens, hblock, hstay.framed.not_isCollapsible_collapse]),
          hstay.inner_eq, block_collapse hagree haround (frontSize_of_opensBlock hblock)]
    | false =>
        rw [body_of_not_block format (by simp [hblock]),
          body_of_not_block format' (by simp [hstay.inner_eq, hopens, hblock]), hagree.statement h]

omit hagree in
/-- The statement that stands last in a phrase. -/
theorem Around.laid_last {inner statement : Node} {front : List Node} (h : Around n n' inner)
    (hchildren : inner.children = front ++ [statement])
    (hsize : inner.frontSize? = some (inner.children.length - 1)) : Laid n n' statement := by
  refine h.laid hsize ?_
  rw [hchildren, List.length_append, List.length_singleton, Nat.add_sub_cancel, List.drop_left]
  exact List.mem_singleton_self statement

omit hagree in
theorem Around.map_front {inner statement : Node} {front : List Node} (h : Around n n' inner)
    (hchildren : inner.children = front ++ [statement])
    (hsize : inner.frontSize? = some (inner.children.length - 1)) :
    front.map collapse = front := by
  have hfront : inner.children.take (inner.children.length - 1) = front := by
    rw [hchildren, List.length_append, List.length_singleton, Nat.add_sub_cancel, List.take_left]
  rw [← hfront]
  exact h.map_take hsize (Nat.le_refl _)

omit hagree in
/-- Children are few, or they are a first one, a last one and what is in between. -/
theorem few_or_ends (nodes : List Node) :
    nodes.length < 2 ∨ ∃ first middle last, nodes = first :: (middle ++ [last]) := by
  rcases nodes with - | ⟨first, rest⟩
  · exact .inl (by simp)
  · rcases List.eq_nil_or_concat rest with rfl | ⟨middle, last, rfl⟩
    · exact .inl (by simp)
    · exact .inr ⟨first, middle, last, by rw [List.concat_eq_append]⟩

omit hagree in
/-- The kinds of phrases whose last child is a statement, unless they have one child. -/
def EndsInStatement (inner : Node) : Prop :=
  inner.kind? = some .alwaysConstruct ∨ inner.kind? = some .initialConstruct ∨
    inner.kind? = some .loopStatement ∨ inner.kind? = some .loopGenerateConstruct ∨
    inner.kind? = some .proceduralTimingControlStatement

omit hagree in
/-- The front of a node that ends in a statement is all that stands before it. -/
theorem EndsInStatement.frontSize_eq {inner : Node} (h : EndsInStatement inner) :
    inner.frontSize? =
      if 2 ≤ inner.children.length then some (inner.children.length - 1) else none := by
  rw [frontSize?]
  rcases h with hkind | hkind | hkind | hkind | hkind
  all_goals
    rw [hkind]

omit hagree in
/-- Such a phrase with few children has no statement to lay out. -/
theorem EndsInStatement.collapse_eq {inner : Node} (h : EndsInStatement inner)
    (haround : Around n n' inner) (hfew : inner.children.length < 2) : inner.collapse = inner := by
  refine haround.framed.fixed ?_
  rw [h.frontSize_eq, if_neg (by omega)]

omit hagree in
/-- The children of such a phrase, with its statement, before and after blocks are dropped. -/
theorem EndsInStatement.ends {inner first last : Node} {middle : List Node}
    (h : EndsInStatement inner) (haround : Around n n' inner)
    (hchildren : inner.children = first :: (middle ++ [last])) :
    Laid n n' last ∧ inner.collapse.children = first :: (middle ++ [last.collapse]) := by
  have hlength : 2 ≤ inner.children.length := by simp [hchildren]
  have hsize := h.frontSize_eq.trans (if_pos hlength)
  have hchildren' : inner.children = (first :: middle) ++ [last] := hchildren
  refine ⟨haround.laid_last hchildren' hsize, ?_⟩
  rw [haround.children_collapse, hchildren', List.map_append, haround.map_front hchildren' hsize]
  rfl

/-- The same holds for a statement behind a timing control that follows a keyword. -/
theorem timedBody_collapse {statement : Node} (h : Laid n n' statement) (level : Int) :
    timedBody format statement level [] = timedBody format' statement.collapse level [] := by
  have hkind : statement.collapse.unwrap.inner.kind? =
      some .proceduralTimingControlStatement ↔ _ :=
    h.settled.kind?_unwrap_collapse (by decide) rfl
  by_cases htiming : statement.unwrap.inner.kind? = some .proceduralTimingControlStatement
  · have hstay : Stay statement.unwrap statement.collapse.unwrap := by
      rcases h.settled.unwrap with ⟨-, hdrop⟩ | hstay
      · obtain ⟨_, _, _, hcollapsible, -⟩ := hdrop.exists_block
        cases htiming.symm.trans (of_isCollapsible hcollapsible).1
      · exact hstay
    have hends : EndsInStatement statement.unwrap.inner :=
      .inr (.inr (.inr (.inr htiming)))
    rcases few_or_ends statement.unwrap.inner.children with hfew | ⟨control, middle, timed, hends'⟩
    · have hfew' : statement.collapse.unwrap.inner.children.length < 2 := by
        rw [hstay.inner_eq, (h.around hstay).children_collapse, List.length_map]
        exact hfew
      rw [timedBody_of_few format hfew, timedBody_of_few format' hfew', body_collapse hagree h]
    · obtain ⟨htimed, hchildren⟩ := hends.ends (h.around hstay) hends'
      rw [← hstay.inner_eq] at hchildren
      rw [timedBody_of_timing format h.plain htiming hends',
        timedBody_of_timing format' h.plain_collapse (hkind.2 htiming) hchildren,
        body_collapse hagree htimed]
  · rw [timedBody_of_not_timing format htiming,
      timedBody_of_not_timing format' (mt hkind.1 htiming), body_collapse hagree h]

/-- A construct writes the same whether a block behind it is dropped or not. -/
theorem procedural_collapse {inner : Node} (h : Around n n' inner)
    (hkind : inner.kind? = some .alwaysConstruct ∨ inner.kind? = some .initialConstruct)
    (level : Int) :
    procedural format inner level = procedural format' inner.collapse level := by
  have hends : EndsInStatement inner := by
    rcases hkind with hkind | hkind
    · exact .inl hkind
    · exact .inr (.inl hkind)
  -- With fewer than two children there is no statement apart from the keyword.
  rcases few_or_ends inner.children with hfew | ⟨keyword, middle, statement, hchildren⟩
  · have hsame := hends.collapse_eq h hfew
    rw [hsame]
    cases hchildren : inner.children with
    | nil => simp [procedural, hchildren, require]
    | cons child rest =>
        obtain rfl : rest = [] := by
          rw [hchildren, List.length_cons] at hfew
          exact List.eq_nil_of_length_eq_zero (by omega)
        have hmem : child ∈ inner.children := by simp [hchildren]
        have hfixed := collapse_eq_of_mem hsame hmem
        have hchild : Laid n n' child :=
          ⟨h.child h.framed.not_isCollapsible hmem, .fixed hfixed⟩
        have hhead : inner.children.head? = some child := by rw [hchildren, List.head?_cons]
        have hlast : inner.children.getLast? = some child := by
          rw [hchildren, List.getLast?_singleton]
        rw [procedural_plain format h.plain hhead hlast,
          procedural_plain format' h.plain hhead hlast, timedBody_collapse hagree hchild, hfixed]
  · obtain ⟨hstatement, hchildren'⟩ := hends.ends h hchildren
    have hlast : ∀ last, (keyword :: (middle ++ [last])).getLast? = some last := fun last => by
      rw [← List.cons_append, List.getLast?_concat]
    rw [procedural_plain format h.plain (by rw [hchildren, List.head?_cons])
        (by rw [hchildren, hlast]),
      procedural_plain format' h.plain_collapse (by rw [hchildren', List.head?_cons])
        (by rw [hchildren', hlast]),
      timedBody_collapse hagree hstatement]

/-! ## Loops and timing controls -/

/-- A loop writes the same whether a block behind it is dropped or not. -/
theorem loop_collapse {inner : Node} (h : Around n n' inner) (hends : EndsInStatement inner)
    (level : Int) : loop format inner level = loop format' inner.collapse level := by
  rcases few_or_ends inner.children with hfew | ⟨first, middle, statement, hchildren⟩
  · rw [hends.collapse_eq h hfew, loop_of_few format hfew, loop_of_few format' hfew]
  · obtain ⟨hstatement, hchildren'⟩ := hends.ends h hchildren
    rw [loop_plain format h.plain hchildren, loop_plain format' h.plain_collapse hchildren',
      body_collapse hagree hstatement]

/-- A timing control writes the same whether a block behind it is dropped or not. -/
theorem timingControl_collapse {inner : Node} (h : Around n n' inner)
    (hends : EndsInStatement inner) (level : Int) :
    timingControl format inner level = timingControl format' inner.collapse level := by
  rcases few_or_ends inner.children with hfew | ⟨control, middle, statement, hchildren⟩
  · rw [hends.collapse_eq h hfew, timingControl_of_few format hfew,
      timingControl_of_few format' hfew]
  · obtain ⟨hstatement, hchildren'⟩ := hends.ends h hchildren
    rw [timingControl_plain format h.plain hchildren,
      timingControl_plain format' h.plain_collapse hchildren', body_collapse hagree hstatement,
      hstatement.settled.isSimple_collapse, inlineStatement_collapse hagree hstatement]

end VerilogLayout.Render

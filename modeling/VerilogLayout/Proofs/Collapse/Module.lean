import VerilogLayout.Proofs.Collapse.Statement
import VerilogLayout.Proofs.Comments.Module

/-!
# Modules around blocks that are dropped

The items of a module are found by folding over its children, so `ModuleParts.add_collapse` compares
one step of the fold and `ofChildren_collapse` the whole of it. What the head of a module is made of
is not changed.
-/

namespace VerilogLayout.Render

open Node

variable {format format' : Formatter} {n n' : Nat} (hagree : Agrees format format' n n')

/-! ## Descriptions and regions -/

include hagree

/-- Descriptions are written the same whether the blocks in them are dropped or not. -/
theorem sourceText_collapse {nodes : List Node} (h : ∀ node ∈ nodes, Laid n n' node) (level : Int)
    (isFirst : Bool) :
    sourceText format level isFirst nodes =
      sourceText format' level isFirst (nodes.map collapse) := by
  induction nodes generalizing isFirst with
  | nil => rfl
  | cons node rest ih =>
      obtain ⟨hnode, hrest⟩ := List.forall_mem_cons.1 h
      have hmodule : node.collapse.unwrap.inner.kind? = some .moduleDeclaration ↔ _ :=
        hnode.settled.kind?_unwrap_collapse (by decide) rfl
      rw [List.map_cons, sourceText, sourceText, hagree.statement hnode]
      simp only [ih hrest, hmodule]

omit hagree in
theorem splitClosing_collapse (nodes : List Node) :
    splitClosing (nodes.map collapse) =
      ((splitClosing nodes).1.map collapse, (splitClosing nodes).2) := by
  rw [splitClosing, splitClosing, List.getLast?_map]
  cases nodes.getLast? with
  | none => rfl
  | some last =>
      cases htoken : last.isToken with
      | true =>
          rw [Option.map_some, collapse_of_isToken htoken]
          simp only [htoken, Bool.true_and]
          split
          · rw [List.map_dropLast]
          · rfl
      | false => simp [isToken_collapse, htoken]

omit hagree in
theorem splitClosing_append (nodes : List Node) :
    ∃ close : List Node, nodes = (splitClosing nodes).1 ++ close := by
  unfold splitClosing
  cases hlast : nodes.getLast? with
  | none => exact ⟨[], (List.append_nil _).symm⟩
  | some last =>
      obtain ⟨rest, hrest⟩ := List.getLast?_eq_some_iff.1 hlast
      rw [hrest, List.dropLast_concat]
      dsimp only
      split
      · exact ⟨[last], rfl⟩
      · exact ⟨[], (List.append_nil _).symm⟩

omit hagree in
/-- A region is its head, its items and its closing keyword. -/
theorem keywordBlock_eq (format : Formatter) (node : Node) (level : Int) :
    keywordBlock format node level = (do
      let (children, close) := splitClosing node.children
      let comments ← endOfLine level (children.take node.headSize)
      let lines ← items format (level + 1) (children.drop node.headSize)
      let last ←
        match close with
        | some token => closingLine close token.lexeme level []
        | none => pure []
      pure (spacedText (children.take node.headSize) ++ comments ++ "\n" ++ lines ++ last)) :=
  rfl

/-- A region writes the same whether the blocks in it are dropped or not. -/
theorem keywordBlock_collapse {inner : Node} (h : Around n n' inner)
    (hkind : inner.kind? = some .generateRegion ∨ inner.kind? = some .functionDeclaration ∨
      inner.kind? = some .taskDeclaration) (level : Int) :
    keywordBlock format inner level = keywordBlock format' inner.collapse level := by
  have hsize : inner.frontSize? = some inner.headSize := by
    rw [frontSize?]
    rcases hkind with hkind | hkind | hkind
    all_goals rw [hkind]
  have hheadSize : inner.collapse.headSize = inner.headSize := by
    rw [headSize, headSize, h.kind?_collapse, h.children_collapse, splitClosing_collapse,
      indexOf?_collapse]
  obtain ⟨close, hparts⟩ := splitClosing_append inner.children
  have hhead : ((splitClosing inner.children).1.map collapse).take inner.headSize =
      (splitClosing inner.children).1.take inner.headSize := by
    rw [← List.map_take]
    refine (List.map_congr_left fun child hchild => ?_).trans (List.map_id' _)
    refine h.framed.front _ hsize child ?_
    rw [hparts, List.take_append]
    exact List.mem_append_left _ hchild
  have hitems : ∀ item ∈ (splitClosing inner.children).1.drop inner.headSize, Laid n n' item := by
    intro item hitem
    refine h.laid hsize ?_
    rw [hparts, List.drop_append]
    exact List.mem_append_left _ hitem
  rw [keywordBlock_eq, keywordBlock_eq, hheadSize, h.children_collapse, splitClosing_collapse]
  dsimp only
  rw [hhead, ← List.map_drop, items_collapse hagree hitems]

/-! ## Modules -/

omit hagree

/-- The parts of a module without the blocks that are dropped in its items. -/
def ModuleParts.collapse (parts : ModuleParts) : ModuleParts :=
  { parts with items := parts.items.map Node.collapse }

/-- A child that stays as it is is added to collapsed parts as to the parts. -/
theorem ModuleParts.add_of_collapse_eq (parts : ModuleParts) {node : Node}
    (h : node.collapse = node) : parts.collapse.add node = (parts.add node).collapse := by
  have hitems : parts.items.map Node.collapse ++ [node] =
      (parts.items ++ [node]).map Node.collapse := by
    rw [List.map_append, List.map_singleton, h]
  unfold ModuleParts.add
  simp only [ModuleParts.collapse, hitems]
  split
  · split <;> rfl
  · split
    · split
      · rfl
      · rfl
      · rfl
      · split
        · rfl
        · split <;> rfl
    · split <;> rfl

/-- A list of parameters or of ports. -/
def IsHeadList (node : Node) : Prop :=
  node.kind? = some .moduleParameterPortList ∨ node.kind? = some .listOfPortDeclarations ∨
    node.kind? = some .listOfPorts

/-- A settled list in the head of a module stays as it is. -/
theorem collapse_eq_of_isHeadList {ended closed : Bool} {node : Node}
    (h : Settled ended closed node) (hlist : IsHeadList node) : node.collapse = node := by
  rcases hlist with hkind | hkind | hkind
  all_goals
    refine h.collapse_eq (by rw [frontSize?, hkind]) ((isWrapperName_eq hkind).trans rfl) ?_
    rw [Bool.eq_false_iff]
    intro hcollapsible
    cases hkind.symm.trans (of_isCollapsible hcollapsible).1

/-- The name of a module, or the end of its head, has been found. -/
def ModuleParts.IsTitled (parts : ModuleParts) : Prop :=
  parts.keyword.isSome ∧ (parts.name.isSome ∨ parts.headEnd.isSome)

/-- With a title there is a keyword, and a name while the head lasts. -/
theorem ModuleParts.IsTitled.isNone_eq {parts : ModuleParts} (h : parts.IsTitled) :
    parts.keyword.isNone = false ∧ (parts.headEnd.isNone → parts.name.isNone = false) := by
  obtain ⟨hkeyword, hname⟩ := h
  rw [← Option.not_isSome, ← Option.not_isSome, ← Option.not_isSome, hkeyword]
  refine ⟨rfl, fun hend => ?_⟩
  rw [Bool.not_eq_true'] at hend
  rw [hname.resolve_right (by simp [hend])]
  rfl

/-- Behind the title, a child that is no list ends the head or the module, or it is an item. -/
theorem ModuleParts.add_of_titled {parts : ModuleParts} (h : parts.IsTitled) {node : Node}
    (hlist : ¬ IsHeadList node) :
    parts.add node =
      if parts.headEnd.isNone then
        if node.isLexeme ";" then { parts with headEnd := some node }
        else { parts with items := parts.items ++ [node] }
      else if node.isLexeme "endmodule" then { parts with close := some node }
      else { parts with items := parts.items ++ [node] } := by
  obtain ⟨hkeyword, hname⟩ := h.isNone_eq
  unfold ModuleParts.add
  simp only [hkeyword, Bool.false_eq_true, if_false]
  split
  · next hend =>
      split
      · next hkind => exact absurd (.inl hkind) hlist
      · next hkind => exact absurd (.inr (.inl hkind)) hlist
      · next hkind => exact absurd (.inr (.inr hkind)) hlist
      · simp only [hname hend, Bool.false_eq_true, if_false]
  · rfl

/-- One more child leaves the title. -/
theorem ModuleParts.add_isTitled {parts : ModuleParts} (h : parts.IsTitled) (node : Node) :
    (parts.add node).IsTitled := by
  obtain ⟨hkeyword, hname⟩ := h.isNone_eq
  unfold ModuleParts.add
  simp only [hkeyword, Bool.false_eq_true, if_false]
  split
  · next hend =>
      split
      · exact h
      · exact h
      · exact h
      · simp only [hname hend, Bool.false_eq_true, if_false]
        split
        · exact ⟨h.1, .inr rfl⟩
        · exact h
  · split
    · exact h
    · exact h

/-- One step of the fold over the children of a module. -/
theorem ModuleParts.add_collapse {parts : ModuleParts} (h : parts.IsTitled) {node : Node}
    (hnode : Settled false false node) :
    parts.collapse.add node.collapse = (parts.add node).collapse := by
  have hsame : ∀ {kind : Kind}, kind = .moduleParameterPortList ∨
      kind = .listOfPortDeclarations ∨ kind = .listOfPorts →
      (node.collapse.kind? = some kind ↔ node.kind? = some kind) := by
    rintro kind (rfl | rfl | rfl)
    all_goals exact hnode.kind?_collapse (by decide) rfl rfl
  by_cases hlist : IsHeadList node
  · have hfixed := collapse_eq_of_isHeadList hnode hlist
    rw [hfixed]
    exact parts.add_of_collapse_eq hfixed
  · have hlist' : ¬ IsHeadList node.collapse := by
      unfold IsHeadList
      rwa [hsame (.inl rfl), hsame (.inr (.inl rfl)), hsame (.inr (.inr rfl))]
    have htitled : parts.collapse.IsTitled := h
    have hitems : parts.items.map Node.collapse ++ [node.collapse] =
        (parts.items ++ [node]).map Node.collapse := by
      rw [List.map_append, List.map_singleton]
    rw [ModuleParts.add_of_titled h hlist, ModuleParts.add_of_titled htitled hlist',
      isLexeme_collapse, isLexeme_collapse]
    simp only [ModuleParts.collapse, hitems]
    split
    · split
      · next hend => rw [collapse_of_isToken (isToken_of_isLexeme hend)]
      · rfl
    · split
      · next hclose => rw [collapse_of_isToken (isToken_of_isLexeme hclose)]
      · rfl

/-- The fold over the children behind the name of a module. -/
theorem ModuleParts.foldl_collapse {parts : ModuleParts} (h : parts.IsTitled) {nodes : List Node}
    (hnodes : ∀ node ∈ nodes, Settled false false node) :
    (nodes.map Node.collapse).foldl add parts.collapse = (nodes.foldl add parts).collapse := by
  induction nodes generalizing parts with
  | nil => rfl
  | cons node rest ih =>
      obtain ⟨hnode, hrest⟩ := List.forall_mem_cons.1 hnodes
      rw [List.map_cons, List.foldl_cons, List.foldl_cons, ModuleParts.add_collapse h hnode,
        ih (ModuleParts.add_isTitled h node) hrest]

/-- Children that stay as they are make the collapsed parts. -/
theorem ModuleParts.foldl_of_collapse_eq (parts : ModuleParts) {nodes : List Node}
    (hnodes : ∀ node ∈ nodes, node.collapse = node) :
    nodes.foldl add parts.collapse = (nodes.foldl add parts).collapse := by
  induction nodes generalizing parts with
  | nil => rfl
  | cons node rest ih =>
      obtain ⟨hnode, hrest⟩ := List.forall_mem_cons.1 hnodes
      rw [List.foldl_cons, List.foldl_cons, ModuleParts.add_of_collapse_eq parts hnode, ih _ hrest]

/-- A name or an end of the head is found only behind the keyword. -/
theorem ModuleParts.keyword_isSome_of_add {parts : ModuleParts} {node : Node}
    (hname : parts.name = none) (hend : parts.headEnd = none)
    (hfound : (parts.add node).name.isSome ∨ (parts.add node).headEnd.isSome) :
    (parts.add node).keyword.isSome := by
  unfold ModuleParts.add at hfound ⊢
  split
  · next hkeyword =>
      rw [if_pos hkeyword] at hfound
      split
      · rfl
      · next hword => simp [hword, hname, hend] at hfound
  · next hkeyword =>
      have hsome : parts.keyword.isSome := by simpa [Option.isSome_iff_ne_none] using hkeyword
      split
      · split
        · exact hsome
        · exact hsome
        · exact hsome
        · split
          · exact hsome
          · split <;> exact hsome
      · split <;> exact hsome

/-- The title of a module ends with its name or its head, if it ends at all. -/
theorem isTitled_or_drop_eq_nil (nodes : List Node) {parts : ModuleParts}
    (hname : parts.name = none) (hend : parts.headEnd = none) :
    ((nodes.take (titleSize parts nodes)).foldl ModuleParts.add parts).IsTitled ∨
      nodes.drop (titleSize parts nodes) = [] := by
  induction nodes generalizing parts with
  | nil => exact .inr rfl
  | cons node rest ih =>
      rw [titleSize]
      split
      · next hfound =>
          rw [Bool.or_eq_true] at hfound
          exact .inl ⟨ModuleParts.keyword_isSome_of_add hname hend hfound, hfound⟩
      · next hnone =>
          simp only [Bool.or_eq_true, not_or, Option.not_isSome_iff_eq_none] at hnone
          exact ih hnone.1 hnone.2

/-- The parts of a module whose blocks are dropped. -/
theorem ModuleParts.ofChildren_collapse {inner : Node} (h : Around n n' inner)
    (hkind : inner.kind? = some .moduleDeclaration) :
    ofChildren inner.collapse.children = (ofChildren inner.children).collapse := by
  have hsize : inner.frontSize? = some (titleSize {} inner.children) := by
    rw [frontSize?, hkind]
  have hfront := ModuleParts.foldl_of_collapse_eq {}
    (h.framed.front _ hsize)
  have hsplit := List.take_append_drop (titleSize {} inner.children) inner.children
  have hall : ofChildren inner.children =
      (inner.children.drop (titleSize {} inner.children)).foldl add
        ((inner.children.take (titleSize {} inner.children)).foldl add {}) := by
    rw [← List.foldl_append, hsplit, ofChildren]
  have hall' : ofChildren inner.collapse.children =
      ((inner.children.drop (titleSize {} inner.children)).map Node.collapse).foldl add
        ((inner.children.take (titleSize {} inner.children)).foldl add {}).collapse := by
    rw [← hfront, h.children_collapse, ofChildren]
    conv =>
      lhs
      rw [← hsplit, List.map_append, List.foldl_append, h.map_take hsize (Nat.le_refl _)]
    rfl
  rw [hall, hall']
  have htitle := @isTitled_or_drop_eq_nil inner.children {} rfl rfl
  rcases htitle with htitled | hnil
  · exact ModuleParts.foldl_collapse htitled (h.framed.back _ hsize)
  · rw [hnil]
    rfl

/-- The items of a module are statements, and so are its lists, which are not changed. -/
structure ModuleParts.Laid (n n' : Nat) (parts : ModuleParts) : Prop where
  items : ∀ item ∈ parts.items, Render.Laid n n' item
  lists : ∀ list, parts.parameters = some list ∨ parts.ports = some list →
    Render.Laid n n' list ∧ IsHeadList list

/-- Children that are laid out make parts that are. -/
theorem laid_parts {children : List Node} (h : ∀ child ∈ children, Laid n n' child) :
    (ModuleParts.ofChildren children).Laid n n' := by
  have hmade := madeOf_parts children
  refine ⟨fun item hitem => h item (hmade.items hitem), ?_⟩
  rintro list (hlist | hlist)
  · obtain ⟨hmem, hkind⟩ := hmade.parameters list hlist
    exact ⟨h list hmem, .inl hkind⟩
  · obtain ⟨hmem, hkind⟩ := hmade.ports list hlist
    exact ⟨h list hmem, .inr hkind⟩

include hagree

/-- Nodes that stay as they are are formatted alike. -/
theorem formatAll_collapse {nodes : List Node} (h : ∀ node ∈ nodes, Inside n n' node)
    (hfixed : ∀ node ∈ nodes, node.collapse = node) {terminator : Option Node}
    (hterminator : ∀ token ∈ terminator, token.Plain) (level : Int) :
    formatAll format level terminator nodes = formatAll format' level terminator nodes := by
  induction nodes with
  | nil => rfl
  | cons node rest ih =>
      obtain ⟨hnode, hrest⟩ := List.forall_mem_cons.1 h
      obtain ⟨hsame, hfixedRest⟩ := List.forall_mem_cons.1 hfixed
      rw [formatAll, formatAll, hagree hnode (.fixed hsame) hterminator, hsame,
        ih hrest hfixedRest]

/-- Declarations that stay as they are are written alike. -/
theorem declarationLines_collapse {groups : List Group}
    (h : ∀ group ∈ groups, ∀ node ∈ group.items ++ group.separator.toList,
      Inside n n' node ∧ node.collapse = node) (level : Int) :
    declarationLines format level groups = declarationLines format' level groups := by
  induction groups with
  | nil => rfl
  | cons group rest ih =>
      obtain ⟨hgroup, hrest⟩ := List.forall_mem_cons.1 h
      have hitems : ∀ node ∈ group.items, Inside n n' node ∧ node.collapse = node :=
        fun node hnode => hgroup node (List.mem_append_left _ hnode)
      have hseparator : ∀ token ∈ group.separator, token.Plain := by
        intro token htoken
        refine (hgroup token (List.mem_append_right _ ?_)).1.plain
        rw [Option.mem_toList]
        exact htoken
      rw [declarationLines, declarationLines,
        formatAll_collapse hagree (fun node hnode => (hitems node hnode).1)
          (fun node hnode => (hitems node hnode).2) hseparator, ih hrest]

/-- The entries of a list of parameters or of ports are not changed. -/
theorem entries_collapse {list : Node} (h : Laid n n' list) (hlist : IsHeadList list)
    (start stop : Nat) (level : Int) :
    declarationLines format level (groups "," (between list.children start stop)) =
      declarationLines format' level (groups "," (between list.children start stop)) := by
  have hsame := collapse_eq_of_isHeadList h.settled hlist
  have hcollapsible := not_isCollapsible_of_collapse_eq hsame
  have hinside : Inside (n + 1) (n' + 1) list :=
    ⟨h.plain, Nat.le_succ_of_le h.height_le, Nat.le_succ_of_le h.height_collapse_le⟩
  refine declarationLines_collapse hagree (fun group hgroup node hnode => ?_) level
  have hmem : node ∈ list.children := by
    refine between_subset list.children start stop ?_
    rw [← groups_flatten "," (between list.children start stop)]
    exact List.mem_flatMap.2 ⟨group, hgroup, hnode⟩
  exact ⟨hinside.child hcollapsible hmem, collapse_eq_of_mem hsame hmem⟩

/-- A module writes the same whether the blocks in it are dropped or not. -/
theorem moduleDeclaration_collapse {inner : Node} (h : Around n n' inner)
    (hkind : inner.kind? = some .moduleDeclaration) (level : Int) :
    moduleDeclaration format inner level = moduleDeclaration format' inner.collapse level := by
  have hsize : inner.frontSize? = some (titleSize {} inner.children) := by
    rw [frontSize?, hkind]
  have hchildren : ∀ child ∈ inner.children, Laid n n' child := by
    intro child hchild
    rcases mem_take_or_mem_drop (titleSize {} inner.children) hchild with hfront | hback
    · exact ⟨h.child h.framed.not_isCollapsible hchild,
        .fixed (h.framed.front _ hsize child hfront)⟩
    · exact h.laid hsize hback
  have hparts := laid_parts hchildren
  rw [moduleDeclaration, moduleDeclaration, ModuleParts.ofChildren_collapse h hkind]
  generalize ModuleParts.ofChildren inner.children = parts at hparts ⊢
  have hparameters : ∀ list, parts.parameters = some list → ∀ head,
      parameterList format list level head = parameterList format' list level head := by
    intro list hlist head
    obtain ⟨hlaid, hkind⟩ := hparts.lists list (.inl hlist)
    rw [parameterList, parameterList, entries_collapse hagree hlaid hkind]
  have hports : ∀ list, parts.ports = some list → ∀ head,
      portList format list level head = portList format' list level head := by
    intro list hlist head
    obtain ⟨hlaid, hkind⟩ := hparts.lists list (.inr hlist)
    rw [portList, portList, entries_collapse hagree hlaid hkind]
  have hitems : items format (level + 1) parts.items =
      items format' (level + 1) parts.collapse.items := items_collapse hagree hparts.items _
  -- Everything but the items of a module stands in its head or closes it.
  have hhead : moduleHead parts.collapse level = moduleHead parts level := rfl
  have hsameParameters : parts.collapse.parameters = parts.parameters := rfl
  have hsamePorts : parts.collapse.ports = parts.ports := rfl
  have hsameEnd : parts.collapse.headEnd = parts.headEnd := rfl
  have hsameClose : parts.collapse.close = parts.close := rfl
  simp only [hhead, hsameParameters, hsamePorts, hsameEnd, hsameClose]
  cases hlist : parts.parameters with
  | none =>
      cases hother : parts.ports with
      | none => simp only [hitems]
      | some other => simp only [hitems, hports other hother]
  | some list =>
      cases hother : parts.ports with
      | none => simp only [hitems, hparameters list hlist]
      | some other => simp only [hitems, hparameters list hlist, hports other hother]

end VerilogLayout.Render

import VerilogLayout.Proofs.Origin.Phrase
import VerilogLayout.Proofs.Tokens.Instance

/-!
# Declarations and instances draw on the stock

The fields of a line are drawn from the stock if the nodes that they are read from are in it, and a
layout has no ink but that of its fields. Each way in which a renderer takes nodes apart is passed
through once, then each renderer that calls no other one.
-/

namespace VerilogLayout

open Text (Drawn drawn_nil drawn_append drawn_added drawn_space drawn_flatMap drawn_intercalate)

variable {stock : Text}

/-! ## Layouts -/

/-- All fields are drawn from the stock. -/
structure Declaration.Drawn (stock : Text) (fields : Declaration) : Prop where
  keyword : Text.Drawn stock fields.keyword
  modifiers : Text.Drawn stock fields.modifiers
  signing : Text.Drawn stock fields.signing
  range : Text.Drawn stock fields.range
  names : Text.Drawn stock fields.names
  dimensions : Text.Drawn stock fields.dimensions
  terminator : Text.Drawn stock fields.terminator

namespace Layout

variable (columns : Columns) (start shift : Int)

theorem drawn_port {fields : Declaration} (h : fields.Drawn stock) :
    Drawn stock (port columns fields start shift) := by
  rw [Drawn, Node.ink_port]
  simp only [List.forall_mem_append]
  exact ⟨⟨⟨⟨⟨h.keyword, h.modifiers⟩, h.signing⟩, h.range⟩, h.names⟩, h.terminator⟩

theorem drawn_signal {fields : Declaration} (h : fields.Drawn stock) :
    Drawn stock (signal columns fields start shift) := by
  rw [Drawn, Node.ink_signal]
  simp only [List.forall_mem_append]
  exact ⟨⟨⟨⟨⟨⟨h.keyword, h.modifiers⟩, h.signing⟩, h.range⟩, h.names⟩, h.dimensions⟩, h.terminator⟩

theorem drawn_parameter {fields : Parameter} (hkeyword : Drawn stock fields.keyword)
    (hmodifiers : Drawn stock fields.modifiers) (hname : Drawn stock fields.name)
    (hvalue : Drawn stock fields.value) (hterminator : Drawn stock fields.terminator) :
    Drawn stock (parameter columns fields start shift) := by
  -- A parameter without a value has no equals sign either, and its name is placed by itself.
  by_cases hempty : fields.value = []
  · unfold parameter
    dsimp only
    rw [if_pos (List.isEmpty_iff.2 hempty), Drawn]
    simp only [Line.ink_placeTerminator, Line.ink_place, Line.ink_appendWord, Text.ink_nil,
      List.nil_append, List.forall_mem_append]
    exact ⟨⟨⟨hkeyword, hmodifiers⟩, hname⟩, hterminator⟩
  · rw [Drawn, ink_parameter columns hempty]
    simp only [List.forall_mem_append]
    exact ⟨⟨⟨hkeyword, hmodifiers⟩, ⟨hname, fun c hc => .inl (by revert c; decide)⟩, hvalue⟩,
      hterminator⟩

theorem drawn_assign {pairs : List (Text × Text)}
    (h : ∀ pair ∈ pairs, Drawn stock pair.1 ∧ Drawn stock pair.2) {terminator : Text}
    (hterminator : Drawn stock terminator) :
    Drawn stock (assign columns pairs terminator start shift) := by
  by_cases hempty : pairs = []
  · subst hempty
    rw [Drawn, assign, Line.ink_text_append, Line.ink_place, Text.ink_nil, List.nil_append]
    exact List.forall_mem_append.2 ⟨drawn_added (by decide), hterminator⟩
  · have hpairs : Drawn stock (List.intercalate ", " (pairs.map Node.assignmentText)) := by
      refine drawn_intercalate (drawn_added (by decide)) fun text htext => ?_
      obtain ⟨pair, hpair, rfl⟩ := List.mem_map.1 htext
      obtain ⟨htarget, hvalue⟩ := h pair hpair
      exact drawn_append.2 ⟨drawn_append.2 ⟨htarget, drawn_added (by decide)⟩, hvalue⟩
    rw [Drawn, ink_assign columns hempty]
    simp only [List.forall_mem_append]
    exact ⟨⟨fun c hc => .inl (by revert c; decide), hpairs⟩, hterminator⟩

theorem drawn_connection {name value terminator : Text} (hname : Drawn stock name)
    (hvalue : Drawn stock value) (hterminator : Drawn stock terminator) (column : Int) :
    Drawn stock (connection name value column terminator start) := by
  have hall : Drawn stock ("." ++ name ++ ("(" ++ value ++ ")") ++ terminator) := by
    simp only [drawn_append]
    exact ⟨⟨⟨drawn_added (by decide), hname⟩, ⟨drawn_added (by decide), hvalue⟩,
      drawn_added (by decide)⟩, hterminator⟩
  refine hall.of_ink ?_
  rw [connection, Line.ink_text_append, Line.ink_place, Line.ink_text_append]
  simp only [Text.ink_append, Text.ink_nil, List.nil_append]

end Layout

namespace Render

open Node

variable (columns : Columns)

/-! ## Fields -/

/-- Qualifiers that are drawn from the stock. -/
structure Qualifiers.Drawn (stock : Text) (qualifiers : Qualifiers) : Prop where
  modifiers : ∀ modifier ∈ qualifiers.modifiers, Text.Drawn stock modifier
  signing : Text.Drawn stock qualifiers.signing
  range : Text.Drawn stock qualifiers.range

/-- One more modifier from the stock leaves the qualifiers drawn. -/
theorem Qualifiers.Drawn.add {seen : Qualifiers} (h : seen.Drawn stock) {modifier : Text}
    (hmodifier : Text.Drawn stock modifier) :
    Qualifiers.Drawn stock { seen with modifiers := seen.modifiers ++ [modifier] } :=
  ⟨List.forall_mem_append.2 ⟨h.modifiers, List.forall_mem_singleton.2 hmodifier⟩, h.signing,
    h.range⟩

/-- The end of the file is no keyword, so a keyword is in the stock. -/
theorem drawn_keyword {keywords : List Text} (hend : Lexeme.endOfFile ∉ keywords) {node : Node}
    (h : node.Stocked stock) (hkeyword : (node.isToken && keywords.contains node.lexeme) = true) :
    Drawn stock node.lexeme := by
  rw [Bool.and_eq_true] at hkeyword
  refine h.drawn_lexeme hkeyword.1 fun heq => hend ?_
  rw [← heq]
  exact List.contains_iff_mem.1 hkeyword.2

theorem drawn_normalise {text : Text} (h : Drawn stock text) :
    Drawn stock (Range.normalise columns text) :=
  h.of_ink (Range.ink_normalise columns text)

/-- Splitting off the qualifiers takes them from the nodes and leaves the others. -/
theorem drawn_splitQualifiers {nodes : List Node} (h : AllStocked stock nodes) {seen : Qualifiers}
    (hseen : seen.Drawn stock) :
    (splitQualifiers columns seen nodes).1.Drawn stock ∧
      AllStocked stock (splitQualifiers columns seen nodes).2 := by
  induction nodes generalizing seen with
  | nil => exact ⟨hseen, h⟩
  | cons node rest ih =>
      obtain ⟨hnode, hrest⟩ := List.forall_mem_cons.1 h
      unfold splitQualifiers
      split
      · next hsigning =>
          exact ih hrest ⟨hseen.modifiers, drawn_keyword (by decide) hnode hsigning, hseen.range⟩
      · split
        · next hword => exact ih hrest (hseen.add (drawn_keyword (by decide) hnode hword))
        · split
          · exact ih hrest ⟨hseen.modifiers, hseen.signing,
              drawn_normalise columns hnode.drawn_text⟩
          · split
            · exact ih hrest (hseen.add hnode.drawn_text)
            · exact ⟨hseen, h⟩

theorem drawn_arrayParts? {nodes : List Node} (h : AllStocked stock nodes) {fields : Text × Text}
    (hfields : arrayParts? columns nodes = some fields) :
    Drawn stock fields.1 ∧ Drawn stock fields.2 := by
  have hparts : AllStocked stock (nameParts nodes) := by
    unfold nameParts
    split
    · exact h.opened
    · exact h
  simp only [arrayParts?, Option.bind_eq_bind, Option.bind_eq_some_iff] at hfields
  obtain ⟨name, -, dimension, -, hplaced⟩ := hfields
  split at hplaced
  · obtain rfl := Option.some.inj hplaced
    exact ⟨(hparts.subset List.filter_sublist.subset).drawn_joinedText, drawn_flatMap
      fun part hmem => drawn_normalise columns (hparts part (List.mem_filter.1 hmem).1).drawn_text⟩
  · cases hplaced

theorem drawn_nameFields {nodes : List Node} (h : AllStocked stock nodes) :
    Drawn stock (nameFields columns nodes).1 ∧ Drawn stock (nameFields columns nodes).2 := by
  have hruns : ∀ run ∈ (groups "," (declaredItems nodes)).map Group.items,
      AllStocked stock run := by
    intro run hrun
    obtain ⟨group, hgroup, rfl⟩ := List.mem_map.1 hrun
    exact ((h.spliced (·.is Kind.isIdentifierList)).groups "," (by decide) group hgroup).1
  have hnames : Drawn stock (List.intercalate ", " (((groups "," (declaredItems nodes)).map
      Group.items).map joinedText)) := by
    refine drawn_intercalate (drawn_added (by decide)) fun text hmem => ?_
    obtain ⟨run, hrun, rfl⟩ := List.mem_map.1 hmem
    exact (hruns run hrun).drawn_joinedText
  unfold nameFields
  dsimp only
  split
  · next run hsingle =>
      rw [hsingle] at hruns
      cases hparts : arrayParts? columns run with
      | none => exact ⟨hnames, drawn_nil⟩
      | some fields => exact drawn_arrayParts? columns (hruns run List.mem_cons_self) hparts
  · exact ⟨hnames, drawn_nil⟩

/-! ## Ports and signals -/

section
variable {node : Node} (h : node.Stocked stock) {given : Option Node}
  (hgiven : EndsStocked stock given) (level : Int)
include h hgiven

theorem drawn_declarationFields : (declarationFields columns node given).1.Drawn stock := by
  obtain ⟨hchildren, hend⟩ := h.children.splitTerminator hgiven
  have hnone : Qualifiers.Drawn stock {} := ⟨List.forall_mem_nil _, drawn_nil, drawn_nil⟩
  obtain ⟨hqualifiers, hnamed⟩ :=
    drawn_splitQualifiers columns (hchildren.subset (List.drop_subset 1 _)) hnone
  obtain ⟨hnames, hdimensions⟩ := drawn_nameFields columns hnamed
  refine ⟨?_, drawn_intercalate drawn_space hqualifiers.modifiers, hqualifiers.signing,
    hqualifiers.range, hnames, hdimensions, hend.drawn_terminatorText⟩
  unfold declarationFields
  dsimp only
  cases hkeyword : (Node.splitTerminator node.children given).1.head? with
  | none => exact drawn_nil
  | some keyword => exact (hchildren keyword (List.mem_of_head? hkeyword)).drawn_text

theorem stocked_declarationFields :
    AllStocked stock (node :: (declarationFields columns node given).2.toList) :=
  List.forall_mem_cons.2 ⟨h, (h.children.splitTerminator hgiven).2.toList⟩

theorem draws_portDeclaration : Draws stock (portDeclaration columns node level given) :=
  (draws_endOfLine (stocked_declarationFields columns h hgiven) level).map fun _ hcomments =>
    drawn_append.2
      ⟨Layout.drawn_port columns _ _ (drawn_declarationFields columns h hgiven), hcomments⟩

theorem draws_signalDeclaration : Draws stock (signalDeclaration columns node level given) :=
  (draws_endOfLine (stocked_declarationFields columns h hgiven) level).map fun _ hcomments =>
    drawn_append.2
      ⟨Layout.drawn_signal columns _ _ (drawn_declarationFields columns h hgiven), hcomments⟩

end

/-! ## Parameters -/

/-- The parts of a declaration of parameters that are in the stock. -/
structure ParameterParts.Stocked (stock : Text) (parts : ParameterParts) : Prop where
  modifiers : ∀ modifier ∈ parts.modifiers, Drawn stock modifier
  head : AllStocked stock parts.head
  assignments : GroupsStocked stock parts.assignments

/-- One more stocked child leaves the parts of a parameter stocked. -/
theorem ParameterParts.Stocked.add {parts : ParameterParts} (h : parts.Stocked stock) {node : Node}
    (hnode : node.Stocked stock) : (ParameterParts.add columns parts node).Stocked stock := by
  have hsingle : AllStocked stock [node] := List.forall_mem_singleton.2 hnode
  unfold ParameterParts.add
  split
  · exact ⟨h.modifiers, h.head,
      List.forall_mem_append.2 ⟨h.assignments, hnode.children.groups "," (by decide)⟩⟩
  · refine ⟨h.modifiers, h.head, List.forall_mem_append.2 ⟨h.assignments, ?_⟩⟩
    exact List.forall_mem_singleton.2 ⟨hsingle, endsStocked_none⟩
  · exact ⟨List.forall_mem_append.2 ⟨h.modifiers, List.forall_mem_singleton.2
      (drawn_normalise columns hnode.drawn_text)⟩, h.head.append hsingle, h.assignments⟩
  · exact ⟨List.forall_mem_append.2 ⟨h.modifiers, List.forall_mem_singleton.2 hnode.drawn_text⟩,
      h.head.append hsingle, h.assignments⟩

/-- Stocked children make stocked parts of a parameter. -/
theorem ParameterParts.Stocked.foldl {parts : ParameterParts} (h : parts.Stocked stock)
    {nodes : List Node} (hnodes : AllStocked stock nodes) :
    (nodes.foldl (ParameterParts.add columns) parts).Stocked stock := by
  induction nodes generalizing parts with
  | nil => exact h
  | cons node rest ih =>
      obtain ⟨hnode, hrest⟩ := List.forall_mem_cons.1 hnodes
      exact ih (h.add columns hnode) hrest

theorem drawn_sides? {nodes : List Node} (h : AllStocked stock nodes) {sides : Text × Text}
    (hsides : sides? nodes = some sides) : Drawn stock sides.1 ∧ Drawn stock sides.2 := by
  obtain ⟨place, -, rfl⟩ := Option.map_eq_some_iff.1 hsides
  exact ⟨(h.subset (List.take_subset _ _)).drawn_joinedText,
    (h.subset (List.drop_subset _ _)).drawn_joinedText⟩

theorem drawn_parameterParts {nodes : List Node} (h : AllStocked stock nodes) :
    Drawn stock (parameterParts nodes).1 ∧ Drawn stock (parameterParts nodes).2 := by
  unfold parameterParts
  cases hsides : sides? (opened nodes) with
  | none => exact ⟨h.opened.drawn_joinedText, drawn_nil⟩
  | some sides => exact drawn_sides? h.opened hsides

section
variable {terminator : Option Node} (hend : EndsStocked stock terminator)
include hend

/-- What stands behind an entry: the terminator if it is the last one, or a comma. -/
theorem drawn_entryEnd (isLast : Bool) :
    Drawn stock (if isLast then terminatorText terminator else ",") := by
  split
  · exact hend.drawn_terminatorText
  · exact drawn_added (by decide)

/-- The nodes whose comments stand behind an entry. -/
theorem stocked_entryEnd {group : Group}
    (h : AllStocked stock group.items ∧ EndsStocked stock group.separator) (isLast : Bool) :
    AllStocked stock (group.items ++ group.separator.toList ++
      (if isLast then terminator.toList else [])) := by
  refine (h.1.append h.2.toList).append ?_
  split
  · exact hend.toList
  · exact List.forall_mem_nil _

theorem draws_parameterLines {groups : List Group} (h : GroupsStocked stock groups) (level : Int) :
    Yields (parameterLines columns level terminator groups) fun lines =>
      ∀ line ∈ lines, Drawn stock line := by
  induction groups with
  | nil => exact .pure (List.forall_mem_nil _)
  | cons group rest ih =>
      obtain ⟨hgroup, hrest⟩ := List.forall_mem_cons.1 h
      obtain ⟨hname, hvalue⟩ := drawn_parameterParts hgroup.1
      refine (draws_endOfLine (stocked_entryEnd hend hgroup rest.isEmpty) _).bind
        fun comments hcomments => ?_
      refine (ih hrest).map fun lines hlines => List.forall_mem_cons.2 ⟨?_, hlines⟩
      refine drawn_append.2 ⟨drawn_append.2 ⟨Text.drawn_indentFor _, ?_⟩, hcomments⟩
      exact Layout.drawn_parameter columns _ _ drawn_nil drawn_nil hname hvalue
        (drawn_entryEnd hend rest.isEmpty)

end

theorem draws_parameterDeclaration {node : Node} (h : node.Stocked stock) {given : Option Node}
    (hgiven : EndsStocked stock given) (level : Int) :
    Draws stock (parameterDeclaration columns node level given) := by
  obtain ⟨hchildren, hend⟩ := h.children.splitTerminator hgiven
  unfold parameterDeclaration
  dsimp only
  generalize Node.splitTerminator node.children given = split at hchildren hend
  obtain ⟨children, terminator⟩ := split
  cases children with
  | nil => exact draws_woven h
  | cons keyword others =>
      obtain ⟨hkeyword, hothers⟩ := List.forall_mem_cons.1 hchildren
      have hnone : ParameterParts.Stocked stock {} :=
        ⟨List.forall_mem_nil _, List.forall_mem_nil _, List.forall_mem_nil _⟩
      have hparts := hnone.foldl columns hothers
      dsimp only
      generalize others.foldl (ParameterParts.add columns) {} = parts at hparts
      cases hassignments : parts.assignments with
      | nil => exact draws_woven h
      | cons first rest =>
          have hgroups := hparts.assignments
          rw [hassignments] at hgroups
          obtain ⟨hfirst, hrest⟩ := List.forall_mem_cons.1 hgroups
          obtain ⟨hname, hvalue⟩ := drawn_parameterParts hfirst.1
          have hcomments : AllStocked stock (keyword :: parts.head ++ first.items ++
              first.separator.toList ++ if rest.isEmpty then terminator.toList else []) := by
            have hentry := stocked_entryEnd hend hfirst rest.isEmpty
            simpa only [List.append_assoc] using
              AllStocked.append (List.forall_mem_cons.2 ⟨hkeyword, hparts.head⟩) hentry
          refine (draws_endOfLine hcomments level).bind fun comments hcomments => ?_
          refine (draws_parameterLines columns hend hrest level).map fun lines hlines => ?_
          refine drawn_intercalate (drawn_added (by decide)) (List.forall_mem_cons.2
            ⟨drawn_append.2 ⟨?_, hcomments⟩, hlines⟩)
          exact Layout.drawn_parameter columns _ _ hkeyword.drawn_text
            (drawn_intercalate drawn_space hparts.modifiers) hname hvalue
            (drawn_entryEnd hend rest.isEmpty)

/-! ## Continuous assignments -/

/-- The sides of assignments are drawn from the stock. -/
theorem drawn_assignPairs? {children : List Node} (h : AllStocked stock children)
    {pairs : List (Text × Text)} (hpairs : assignPairs? children = some pairs) :
    ∀ pair ∈ pairs, Drawn stock pair.1 ∧ Drawn stock pair.2 := by
  obtain ⟨list, hlist, hsides⟩ := exists_list_of_assignPairs? hpairs
  intro pair hpair
  obtain ⟨group, hgroup, hpair⟩ := hsides pair hpair
  exact drawn_sides? ((h list hlist).children.groups "," (by decide) group hgroup).1.opened hpair

theorem draws_verbatimAssign {children : List Node} (h : AllStocked stock children)
    {terminator : Option Node} (hend : EndsStocked stock terminator) (level : Int) :
    Draws stock (verbatimAssign children level terminator) := by
  refine (yields_require _).bind fun keyword hkeyword => ?_
  have hparts : ∀ part ∈ [keyword.text, spacedText (children.drop 1)].filter (!·.isEmpty),
      Drawn stock part := by
    intro part hmem
    have hpart := (List.mem_filter.1 hmem).1
    simp only [List.mem_cons, List.not_mem_nil, or_false] at hpart
    rcases hpart with rfl | rfl
    · exact (h keyword (List.mem_of_head? hkeyword)).drawn_text
    · exact (h.subset (List.drop_subset 1 _)).drawn_spacedText
  refine (draws_endOfLine (h.append hend.toList) level).map fun comments hcomments => ?_
  exact drawn_append.2 ⟨drawn_append.2
    ⟨drawn_intercalate drawn_space hparts, hend.drawn_terminatorText⟩, hcomments⟩

theorem draws_continuousAssign {node : Node} (h : node.Stocked stock) {given : Option Node}
    (hgiven : EndsStocked stock given) (level : Int) :
    Draws stock (continuousAssign columns node level given) := by
  obtain ⟨hchildren, hend⟩ := h.children.splitTerminator hgiven
  unfold continuousAssign
  dsimp only
  split
  · exact draws_verbatimAssign hchildren hend level
  · next pairs hpairs =>
      have hline := Layout.drawn_assign columns (level * indentWidth) (columnShift level)
        (drawn_assignPairs? hchildren hpairs) hend.drawn_terminatorText
      exact (draws_endOfLine (List.forall_mem_cons.2 ⟨h, hend.toList⟩) level).map
        fun comments hcomments => drawn_append.2 ⟨hline, hcomments⟩

end Render
end VerilogLayout

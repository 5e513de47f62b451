import VerilogLayout.Proofs.Nesting.Span

/-!
# Declarations that nest

A straight node has neither a comment nor a lexeme that breaks a line, so all that is read off it is
on one line. A declaration of ports or signals and a continuous assignment are then one line, which
is the same at every level, and declarations of parameters have one line more for every parameter
behind the first. `Uniform` covers a renderer that fails as well: it fails at every level.
-/

namespace VerilogLayout

open Text Render

/-- A renderer writes a text that nests, or fails at every level. -/
def Uniform (m : Int → Render Text) : Prop :=
  (∃ t, Nests t ∧ ∀ level, 1 ≤ level → m level = pure (t level)) ∨
    ∃ e, ∀ level, m level = throw e

theorem Nests.uniform {t : Int → Text} (h : Nests t) {m : Int → Render Text}
    (hm : ∀ level, 1 ≤ level → m level = pure (t level)) : Uniform m :=
  .inl ⟨t, h, hm⟩

namespace Node

/-! ## Straight nodes -/

/-- A node without comments, none of whose lexemes breaks a line. -/
structure Straight (node : Node) : Prop where
  plain : node.Plain
  unbroken : ∀ leaf ∈ node.leaves, OneLine leaf.lexeme

/-- Nodes without comments, none of whose lexemes breaks a line. -/
def AllStraight (nodes : List Node) : Prop :=
  ∀ node ∈ nodes, node.Straight

/-- The same for groups with their separators. -/
def GroupsStraight (groups : List Group) : Prop :=
  ∀ group ∈ groups, AllStraight (group.items ++ group.separator.toList)

/-- A terminator without comments, whose lexeme does not break a line. -/
def EndsStraight (terminator : Option Node) : Prop :=
  ∀ token ∈ terminator, token.Plain ∧ OneLine token.lexeme

theorem mem_leavesAll {leaf : Node} {nodes : List Node} :
    leaf ∈ leavesAll nodes ↔ ∃ node ∈ nodes, leaf ∈ node.leaves := by
  induction nodes with
  | nil => simp [leavesAll]
  | cons node rest ih => simp [leavesAll, ih]

mutual
/-- There is nothing below a leaf. -/
theorem children_of_mem_leaves {leaf : Node} : (node : Node) → leaf ∈ node.leaves →
    leaf.children = []
  | ⟨name, value, [], leading, trailing⟩, h => by
      rw [leaves, List.mem_singleton] at h
      rw [h]
  | ⟨name, value, child :: rest, leading, trailing⟩, h => by
      rw [leaves] at h
      exact children_of_mem_leavesAll (child :: rest) h

/-- The same for the leaves of nodes. -/
theorem children_of_mem_leavesAll {leaf : Node} : (nodes : List Node) → leaf ∈ leavesAll nodes →
    leaf.children = []
  | [], h => by simp [leavesAll] at h
  | node :: rest, h => by
      rw [leavesAll, List.mem_append] at h
      exact h.elim (children_of_mem_leaves node) (children_of_mem_leavesAll rest)
end

/-- A lexeme whose writing is fixed by the name of its token is on one line too. -/
theorem oneLine_plain {name : Text} {lexeme : Text} (h : OneLine lexeme) :
    OneLine (Lexeme.plain name lexeme) := by
  have hfixed : ∀ entry ∈ Lexeme.fixed, OneLine entry.2 := by decide
  unfold Lexeme.plain
  split
  · exact oneLine_nil
  · cases hname : Lexeme.byName? name with
    | none => exact h
    | some text => exact hfixed _ (Lexeme.mem_fixed_of_byName? hname)

namespace AllStraight

variable {nodes others : List Node}

theorem plain (h : AllStraight nodes) : AllPlain nodes :=
  fun node hmem => (h node hmem).plain

theorem subset (h : AllStraight nodes) (hsubset : others ⊆ nodes) : AllStraight others :=
  fun node hmem => h node (hsubset hmem)

theorem cons {node : Node} (hnode : node.Straight) (h : AllStraight nodes) :
    AllStraight (node :: nodes) :=
  List.forall_mem_cons.2 ⟨hnode, h⟩

theorem append (h : AllStraight nodes) (hothers : AllStraight others) :
    AllStraight (nodes ++ others) :=
  List.forall_mem_append.2 ⟨h, hothers⟩

end AllStraight

namespace EndsStraight

variable {terminator : Option Node} (h : EndsStraight terminator)
include h

theorem plain : ∀ token ∈ terminator, token.Plain :=
  fun token hmem => (h token hmem).1

theorem oneLine_terminatorText : OneLine (terminatorText terminator) := by
  cases terminator with
  | none => exact oneLine_nil
  | some token => exact (h token rfl).2

end EndsStraight

namespace Straight

variable {node : Node} (h : node.Straight)
include h

theorem children : AllStraight node.children := by
  intro child hchild
  refine ⟨Within.children h.plain child hchild, fun leaf hleaf => h.unbroken leaf ?_⟩
  rw [leaves_of_children_ne_nil (List.ne_nil_of_mem hchild)]
  exact mem_leavesAll.2 ⟨child, hchild, hleaf⟩

theorem oneLine_lexeme (htoken : node.isToken) : OneLine node.lexeme :=
  h.unbroken node (by rw [leaves_of_isToken htoken]; exact List.mem_singleton_self node)

/-- The text of a phrase is on one line. -/
theorem oneLine_text : OneLine node.text := by
  rw [← oneLine_unspaced, unspaced_text]
  refine oneLine_flatMap fun leaf hleaf => ?_
  rw [unspaced_text_of_leaf (children_of_mem_leaves node hleaf), oneLine_unspaced]
  exact oneLine_plain (h.unbroken leaf hleaf)

/-- What is in the wrappers is straight. -/
theorem unwrap : node.unwrap.inner.Straight ∧
    EndsStraight node.unwrap.terminator := by
  fun_induction Node.unwrap node with
  | case1 name value inner leading trailing _ below ih =>
      exact ih (h.children inner List.mem_cons_self)
  | case3 name value inner last leading trailing hwrapper below ih =>
      refine ⟨(ih (h.children inner List.mem_cons_self)).1, ?_⟩
      rintro _ ⟨⟩
      have hlast := h.children last (List.mem_cons_of_mem _ List.mem_cons_self)
      simp only [isLexeme, Bool.and_eq_true] at hwrapper
      obtain ⟨-, htoken, -⟩ := hwrapper
      exact ⟨hlast.plain, hlast.oneLine_lexeme htoken⟩
  | case2 | case4 | case5 => exact ⟨h, by simp [EndsStraight]⟩

end Straight

namespace AllStraight

variable {nodes : List Node} (h : AllStraight nodes)
include h

theorem oneLine_joinedText : OneLine (joinedText nodes) := by
  rw [← oneLine_unspaced, joinedText, Spacing.unspaced_joinPieces, List.flatMap_map]
  exact oneLine_flatMap fun node hmem => oneLine_unspaced.2 (h node hmem).oneLine_text

theorem oneLine_spacedText : OneLine (spacedText nodes) := by
  have hpiece : ∀ {front piece : Text}, OneLine front → OneLine piece →
      OneLine (addSpaced front piece) := by
    intro front piece hfront hpiece
    unfold addSpaced
    split
    · exact oneLine_append.2 ⟨hfront, hpiece⟩
    · exact oneLine_append.2 ⟨oneLine_append.2 ⟨hfront, oneLine_space⟩, hpiece⟩
  suffices hfold : ∀ front, OneLine front → OneLine ((nodes.map text).foldl addSpaced front) from
    hfold [] oneLine_nil
  induction nodes with
  | nil => exact fun front hfront => hfront
  | cons node rest ih =>
      obtain ⟨hnode, hrest⟩ := List.forall_mem_cons.1 h
      exact fun front hfront => ih hrest _ (hpiece hfront hnode.oneLine_text)

/-- The children of a phrase in place of it. -/
theorem opened : AllStraight (Node.opened nodes) := by
  unfold Node.opened
  split
  · split
    · exact h
    · exact (h _ List.mem_cons_self).children
  · exact h

/-- Some of the nodes replaced by their children. -/
theorem spliced (p : Node → Prop) [DecidablePred p] :
    AllStraight (nodes.flatMap fun node => if p node then node.children else [node]) := by
  intro child hmem
  obtain ⟨node, hnode, hchild⟩ := List.mem_flatMap.1 hmem
  split at hchild
  · exact (h node hnode).children child hchild
  · rw [List.mem_singleton.1 hchild]
    exact h node hnode

/-- Cutting straight nodes into groups leaves their separators straight. -/
theorem groups (lexeme : Text) : GroupsStraight (Node.groups lexeme nodes) := by
  intro group hgroup node hnode
  refine h node ?_
  rw [← groups_flatten lexeme nodes]
  exact List.mem_flatMap.2 ⟨group, hgroup, hnode⟩

/-- Cutting straight nodes into groups leaves the groups straight. -/
theorem items (lexeme : Text) :
    ∀ group ∈ Node.groups lexeme nodes, AllStraight group.items :=
  fun group hgroup => (h.groups lexeme group hgroup).subset (List.subset_append_left _ _)

/-- The nodes in front of a terminator and the terminator. -/
theorem splitTerminator {given : Option Node} (hgiven : EndsStraight given) :
    AllStraight (Node.splitTerminator nodes given).1 ∧
      EndsStraight (Node.splitTerminator nodes given).2 := by
  unfold Node.splitTerminator
  split
  · next last hlast =>
      split
      · next hsemicolon =>
          have hend := h last (List.mem_of_getLast? hlast)
          rw [isLexeme, Bool.and_eq_true] at hsemicolon
          refine ⟨h.subset (List.dropLast_sublist _).subset, ?_⟩
          rintro _ ⟨⟩
          exact ⟨hend.plain, hend.oneLine_lexeme hsemicolon.1⟩
      · exact ⟨h, hgiven⟩
  · exact ⟨h, hgiven⟩

end AllStraight

end Node

namespace Render

open Node

variable (columns : Columns)

/-! ## Ports and signals -/

/-- Qualifiers on one line. -/
structure Qualifiers.OneLine (qualifiers : Qualifiers) : Prop where
  modifiers : ∀ modifier ∈ qualifiers.modifiers, Text.OneLine modifier
  signing : Text.OneLine qualifiers.signing
  range : Text.OneLine qualifiers.range

/-- One more modifier on one line does not break the line. -/
theorem Qualifiers.OneLine.add {seen : Qualifiers} (h : seen.OneLine) {modifier : Text}
    (hmodifier : Text.OneLine modifier) :
    Qualifiers.OneLine { seen with modifiers := seen.modifiers ++ [modifier] } :=
  ⟨List.forall_mem_append.2 ⟨h.modifiers, List.forall_mem_singleton.2 hmodifier⟩, h.signing,
    h.range⟩

/-- Every qualifier that is read is on one line. -/
theorem oneLine_splitQualifiers {nodes : List Node} (h : AllStraight nodes) {seen : Qualifiers}
    (hseen : seen.OneLine) :
    (splitQualifiers columns seen nodes).1.OneLine ∧
      AllStraight (splitQualifiers columns seen nodes).2 := by
  induction nodes generalizing seen with
  | nil => exact ⟨hseen, h⟩
  | cons node rest ih =>
      obtain ⟨hnode, hrest⟩ := List.forall_mem_cons.1 h
      unfold splitQualifiers
      split
      · next hsigning =>
          rw [Bool.and_eq_true] at hsigning
          exact ih hrest ⟨hseen.modifiers, hnode.oneLine_lexeme hsigning.1, hseen.range⟩
      · split
        · next hword =>
            rw [Bool.and_eq_true] at hword
            exact ih hrest (hseen.add (hnode.oneLine_lexeme hword.1))
        · split
          · exact ih hrest ⟨hseen.modifiers, hseen.signing,
              Range.oneLine_normalise columns hnode.oneLine_text⟩
          · split
            · exact ih hrest (hseen.add hnode.oneLine_text)
            · exact ⟨hseen, h⟩

theorem oneLine_arrayParts? {nodes : List Node} (h : AllStraight nodes) {fields : Text × Text}
    (hfields : arrayParts? columns nodes = some fields) :
    OneLine fields.1 ∧ OneLine fields.2 := by
  have hparts : AllStraight (nameParts nodes) := by
    unfold nameParts
    split
    · exact h.opened
    · exact h
  simp only [arrayParts?, Option.bind_eq_bind, Option.bind_eq_some_iff] at hfields
  obtain ⟨name, -, dimension, -, hplaced⟩ := hfields
  split at hplaced
  · obtain rfl := Option.some.inj hplaced
    exact ⟨(hparts.subset List.filter_sublist.subset).oneLine_joinedText, oneLine_flatMap
      fun part hmem => Range.oneLine_normalise columns
        (hparts part (List.mem_filter.1 hmem).1).oneLine_text⟩
  · cases hplaced

theorem oneLine_nameFields {nodes : List Node} (h : AllStraight nodes) :
    OneLine (nameFields columns nodes).1 ∧ OneLine (nameFields columns nodes).2 := by
  have hruns : ∀ run ∈ (groups "," (declaredItems nodes)).map Group.items, AllStraight run := by
    intro run hrun
    obtain ⟨group, hgroup, rfl⟩ := List.mem_map.1 hrun
    exact (h.spliced (·.is Kind.isIdentifierList)).items "," group hgroup
  have hcomma : OneLine ", " := by decide
  have hnames :
      OneLine (List.intercalate ", " (((groups "," (declaredItems nodes)).map Group.items).map
      joinedText)) := by
    refine oneLine_intercalate hcomma fun text hmem => ?_
    obtain ⟨run, hrun, rfl⟩ := List.mem_map.1 hmem
    exact (hruns run hrun).oneLine_joinedText
  unfold nameFields
  dsimp only
  split
  · next run hsingle =>
      rw [hsingle] at hruns
      cases hparts : arrayParts? columns run with
      | none => exact ⟨hnames, oneLine_nil⟩
      | some fields => exact oneLine_arrayParts? columns (hruns run List.mem_cons_self) hparts
  · exact ⟨hnames, oneLine_nil⟩

section
variable {node : Node} (h : node.Straight) {given : Option Node} (hgiven : EndsStraight given)
include h hgiven

/-- Every field of a declaration is on one line. -/
theorem oneLine_declarationFields : (declarationFields columns node given).1.OneLine := by
  obtain ⟨hchildren, hend⟩ := h.children.splitTerminator hgiven
  have hnone : Qualifiers.OneLine {} := ⟨by simp, oneLine_nil, oneLine_nil⟩
  obtain ⟨hqualifiers, hnamed⟩ :=
    oneLine_splitQualifiers columns (hchildren.subset (List.drop_subset 1 _)) hnone
  obtain ⟨hnames, hdimensions⟩ := oneLine_nameFields columns hnamed
  refine ⟨?_, oneLine_intercalate oneLine_space hqualifiers.modifiers, hqualifiers.signing,
    hqualifiers.range, hnames, hdimensions, hend.oneLine_terminatorText⟩
  unfold declarationFields
  dsimp only
  cases hkeyword : (Node.splitTerminator node.children given).1.head? with
  | none => exact oneLine_nil
  | some keyword => exact (hchildren keyword (List.mem_of_head? hkeyword)).oneLine_text

/-- The fields of a straight declaration leave no comment behind. -/
theorem plain_declarationFields :
    AllPlain (node :: (declarationFields columns node given).2.toList) :=
  within_declarationFields columns h.plain hgiven.plain

theorem uniform_portDeclaration :
    Uniform fun level => portDeclaration columns node level given := by
  have hline := Layout.oneLine_port columns (1 * indentWidth) 0
    (oneLine_declarationFields columns h hgiven)
  refine (Nests.const hline).uniform fun level hlevel => ?_
  unfold portDeclaration
  simp only [endOfLine_plain (plain_declarationFields columns h hgiven), pure_bind, List.append_nil,
    Layout.port_atLevel columns hlevel]

theorem uniform_signalDeclaration :
    Uniform fun level => signalDeclaration columns node level given := by
  have hline := Layout.oneLine_signal columns (1 * indentWidth) 0
    (oneLine_declarationFields columns h hgiven)
  refine (Nests.const hline).uniform fun level hlevel => ?_
  unfold signalDeclaration
  simp only [endOfLine_plain (plain_declarationFields columns h hgiven), pure_bind, List.append_nil,
    Layout.signal_atLevel columns hlevel]

end

/-! ## Parameters -/

/-- The parts of a declaration of parameters without comments and line feeds. -/
structure ParameterParts.Straight (parts : ParameterParts) : Prop where
  modifiers : ∀ modifier ∈ parts.modifiers, OneLine modifier
  head : AllStraight parts.head
  assignments : GroupsStraight parts.assignments

/-- One more straight child leaves the parts of a parameter straight. -/
theorem ParameterParts.Straight.add {parts : ParameterParts} (h : parts.Straight) {node : Node}
    (hnode : node.Straight) : (ParameterParts.add columns parts node).Straight := by
  have hsingle : AllStraight [node] := List.forall_mem_singleton.2 hnode
  unfold ParameterParts.add
  split
  · exact ⟨h.modifiers, h.head,
      List.forall_mem_append.2 ⟨h.assignments, hnode.children.groups ","⟩⟩
  · refine ⟨h.modifiers, h.head, List.forall_mem_append.2 ⟨h.assignments, ?_⟩⟩
    exact List.forall_mem_singleton.2 hsingle
  · exact ⟨List.forall_mem_append.2 ⟨h.modifiers, List.forall_mem_singleton.2
      (Range.oneLine_normalise columns hnode.oneLine_text)⟩, h.head.append hsingle, h.assignments⟩
  · exact ⟨List.forall_mem_append.2 ⟨h.modifiers, List.forall_mem_singleton.2 hnode.oneLine_text⟩,
      h.head.append hsingle, h.assignments⟩

/-- Straight children have straight parts. -/
theorem ParameterParts.Straight.foldl {parts : ParameterParts} (h : parts.Straight)
    {nodes : List Node} (hnodes : AllStraight nodes) :
    (nodes.foldl (ParameterParts.add columns) parts).Straight := by
  induction nodes generalizing parts with
  | nil => exact h
  | cons node rest ih =>
      obtain ⟨hnode, hrest⟩ := List.forall_mem_cons.1 hnodes
      exact ih (h.add columns hnode) hrest

/-- The two sides of an assignment are on one line. -/
theorem oneLine_sides? {nodes : List Node} (h : AllStraight nodes) {sides : Text × Text}
    (hsides : sides? nodes = some sides) : OneLine sides.1 ∧ OneLine sides.2 := by
  obtain ⟨place, -, rfl⟩ := Option.map_eq_some_iff.1 hsides
  exact ⟨(h.subset (List.take_subset _ _)).oneLine_joinedText,
    (h.subset (List.drop_subset _ _)).oneLine_joinedText⟩

theorem oneLine_parameterParts {nodes : List Node} (h : AllStraight nodes) :
    OneLine (parameterParts nodes).1 ∧ OneLine (parameterParts nodes).2 := by
  unfold parameterParts
  cases hsides : sides? (opened nodes) with
  | none => exact ⟨h.opened.oneLine_joinedText, oneLine_nil⟩
  | some sides => exact oneLine_sides? h.opened hsides

section
variable {terminator : Option Node} (hend : EndsStraight terminator)
include hend

/-- A parameter is on one line, with the comma or the terminator behind it. -/
theorem oneLine_parameterLayout {keyword modifiers : Text} (hkeyword : OneLine keyword)
    (hmodifiers : OneLine modifiers) {group : Group}
    (hgroup : AllStraight (group.items ++ group.separator.toList)) (isLast : Bool) (start : Int) :
    OneLine (Layout.parameter columns
      { keyword, modifiers, name := (parameterParts group.items).1
        value := (parameterParts group.items).2
        terminator := if isLast then terminatorText terminator else "," } start 0) := by
  obtain ⟨hname, hvalue⟩ := oneLine_parameterParts
    (hgroup.subset (List.subset_append_left group.items group.separator.toList))
  refine Layout.oneLine_parameter columns start 0 hkeyword hmodifiers hname hvalue ?_
  dsimp only
  split
  · exact hend.oneLine_terminatorText
  · exact oneLine_comma

/-- The lines of parameters behind the first are the same at every level up to their
indentation. -/
theorem exists_parameterRows {groups : List Group} (h : GroupsStraight groups) :
    ∃ rows : List Text, (∀ row ∈ rows, OneLine row) ∧ ∀ level, 1 ≤ level →
      parameterLines columns level terminator groups =
        pure (rows.map fun row => indentFor (level + 1) ++ row) := by
  induction groups with
  | nil => exact ⟨[], by simp, fun level _ => rfl⟩
  | cons group rest ih =>
      obtain ⟨hgroup, hrest⟩ := List.forall_mem_cons.1 h
      obtain ⟨rows, hrows, hlines⟩ := ih hrest
      have hrow := oneLine_parameterLayout columns hend oneLine_nil oneLine_nil hgroup rest.isEmpty
        (2 * indentWidth)
      refine ⟨_ :: rows, List.forall_mem_cons.2 ⟨hrow, hrows⟩, fun level hlevel => ?_⟩
      rw [parameterLines]
      simp only [endOfLine_plain (allPlain_entry hend.plain hgroup.plain _), hlines level hlevel,
        Layout.parameter_below_atLevel columns hlevel, pure_bind, List.append_nil, List.map_cons]

end

/-- Lines below a line, each a level deeper. -/
theorem nests_rows {line : Int → Text} (hline : Nests line) {rows : List Text}
    (hrows : ∀ row ∈ rows, OneLine row) :
    Nests fun level =>
      List.intercalate "\n" (line level :: rows.map fun row => indentFor (level + 1) ++ row) := by
  have hbelow : Nests fun level =>
      rows.flatMap fun row => "\n" ++ indentFor (level + (1 : Nat)) ++ row :=
    Nests.flatMap fun row hmem => (Nests.feed 1).append (Nests.const (hrows row hmem))
  refine (hline.append hbelow).congr fun level _ => ?_
  rw [intercalate_cons, List.flatMap_map]
  simp only [List.append_assoc, Int.natCast_one]

theorem uniform_woven {node : Node} (h : node.Straight) : Uniform fun _ => woven node :=
  (Nests.const h.oneLine_text).uniform fun _ _ => woven_plain h.plain

theorem uniform_parameterDeclaration {node : Node} (h : node.Straight) {given : Option Node}
    (hgiven : EndsStraight given) :
    Uniform fun level => parameterDeclaration columns node level given := by
  obtain ⟨hchildren, hend⟩ := h.children.splitTerminator hgiven
  unfold parameterDeclaration
  dsimp only
  generalize Node.splitTerminator node.children given = split at hchildren hend
  obtain ⟨children, terminator⟩ := split
  cases children with
  | nil => exact uniform_woven h
  | cons keyword others =>
      obtain ⟨hkeyword, hothers⟩ := List.forall_mem_cons.1 hchildren
      have hparts : (others.foldl (ParameterParts.add columns) {}).Straight :=
        ParameterParts.Straight.foldl columns
          ⟨by simp, by simp [AllStraight], by simp [GroupsStraight]⟩ hothers
      dsimp only
      generalize others.foldl (ParameterParts.add columns) {} = parts at hparts
      -- Without an assignment the node is written as one run of tokens.
      cases hassignments : parts.assignments with
      | nil => exact uniform_woven h
      | cons first rest =>
          have hgroups := hparts.assignments
          rw [hassignments] at hgroups
          obtain ⟨hfirst, hrest⟩ := List.forall_mem_cons.1 hgroups
          obtain ⟨rows, hrows, hlines⟩ := exists_parameterRows columns hend hrest
          have hline := oneLine_parameterLayout columns hend hkeyword.oneLine_text
            (oneLine_intercalate oneLine_space hparts.modifiers) hfirst
            rest.isEmpty (1 * indentWidth)
          have hcomments : AllPlain (keyword :: parts.head ++ first.items ++
              first.separator.toList ++ if rest.isEmpty then terminator.toList else []) := by
            have hentry := allPlain_entry hend.plain hfirst.plain rest.isEmpty
            simpa only [List.append_assoc] using
              allWithin_append.2 ⟨(hparts.head.cons hkeyword).plain, hentry⟩
          refine (nests_rows (Nests.const hline) hrows).uniform fun level hlevel => ?_
          simp only [endOfLine_plain hcomments, hlines level hlevel, pure_bind, List.append_nil,
            Layout.parameter_atLevel columns hlevel]

/-! ## Continuous assignments -/

/-- The pairs are the sides of the assignments in a list of the children. -/
theorem exists_list_of_assignPairs? {children : List Node} {pairs : List (Text × Text)}
    (h : assignPairs? children = some pairs) :
    ∃ list ∈ children, ∀ pair ∈ pairs, ∃ group ∈ groups "," list.children,
      sides? (opened group.items) = some pair := by
  unfold assignPairs? at h
  split at h
  · next keyword list =>
      refine ⟨list, List.mem_cons_of_mem _ List.mem_cons_self, ?_⟩
      split at h
      · generalize groups "," list.children = groups at h
        induction groups generalizing pairs with
        | nil =>
            obtain rfl := Option.some.inj h
            exact List.forall_mem_nil _
        | cons group rest ih =>
            simp only [List.mapM_cons, Option.bind_eq_bind, Option.bind_eq_some_iff] at h
            obtain ⟨sides, hsides, others, hothers, h⟩ := h
            obtain rfl := Option.some.inj h
            refine List.forall_mem_cons.2 ⟨⟨group, List.mem_cons_self, hsides⟩, ?_⟩
            intro pair hpair
            obtain ⟨other, hother, hsides⟩ := ih hothers pair hpair
            exact ⟨other, List.mem_cons_of_mem _ hother, hsides⟩
      · cases h
  · cases h

/-- The sides of straight assignments are single lines. -/
theorem oneLine_assignPairs? {children : List Node} (h : AllStraight children)
    {pairs : List (Text × Text)} (hpairs : assignPairs? children = some pairs) :
    ∀ pair ∈ pairs, OneLine pair.1 ∧ OneLine pair.2 := by
  obtain ⟨list, hlist, hsides⟩ := exists_list_of_assignPairs? hpairs
  intro pair hpair
  obtain ⟨group, hgroup, hpair⟩ := hsides pair hpair
  exact oneLine_sides? ((h list hlist).children.items "," group hgroup).opened hpair

/-- A continuous assignment as it stands. -/
theorem uniform_verbatimAssign {children : List Node} (h : AllStraight children)
    {terminator : Option Node} (hend : EndsStraight terminator) :
    Uniform fun level => verbatimAssign children level terminator := by
  cases children with
  | nil => exact .inr ⟨.missingChild, fun _ => rfl⟩
  | cons keyword others =>
      obtain ⟨hkeyword, hothers⟩ := List.forall_mem_cons.1 h
      have hparts : ∀ part ∈ [keyword.text, spacedText others].filter (!·.isEmpty),
          OneLine part := by
        intro part hmem
        have hpart := (List.mem_filter.1 hmem).1
        simp only [List.mem_cons, List.not_mem_nil, or_false] at hpart
        rcases hpart with rfl | rfl
        · exact hkeyword.oneLine_text
        · exact AllStraight.oneLine_spacedText hothers
      have hplain : AllPlain (keyword :: others ++ terminator.toList) :=
        allWithin_append.2 ⟨h.plain, allWithin_toList.2 hend.plain⟩
      refine (Nests.const (oneLine_append.2
        ⟨oneLine_intercalate oneLine_space hparts, hend.oneLine_terminatorText⟩)).uniform
          fun level _ => ?_
      unfold verbatimAssign
      simp only [List.head?_cons, require, endOfLine_plain hplain, pure_bind, List.append_nil]
      rfl

theorem uniform_continuousAssign {node : Node} (h : node.Straight) {given : Option Node}
    (hgiven : EndsStraight given) :
    Uniform fun level => continuousAssign columns node level given := by
  obtain ⟨hchildren, hend⟩ := h.children.splitTerminator hgiven
  unfold continuousAssign
  dsimp only
  generalize Node.splitTerminator node.children given = split at hchildren hend
  obtain ⟨children, terminator⟩ := split
  cases hpairs : assignPairs? children with
  | none => exact uniform_verbatimAssign hchildren hend
  | some pairs =>
      have hline := Layout.oneLine_assign columns (1 * indentWidth) 0
        (oneLine_assignPairs? hchildren hpairs) hend.oneLine_terminatorText
      have hcomments : AllPlain (node :: terminator.toList) :=
        allWithin_cons.2 ⟨h.plain, allWithin_toList.2 hend.plain⟩
      refine (Nests.const hline).uniform fun level hlevel => ?_
      simp only [endOfLine_plain hcomments, pure_bind, List.append_nil,
        Layout.assign_atLevel columns hlevel]

end Render
end VerilogLayout

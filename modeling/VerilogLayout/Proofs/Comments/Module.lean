import VerilogLayout.Proofs.Comments.Declaration
import VerilogLayout.Render.Module

/-!
# Comments of modules and regions

A module's head is an `Open` line that the lists of parameters and ports pass on; `keeps_portList`
says that the comments taken so far stand in it and that the pending nodes belong to the module.
The parts that a module is sorted into are all its children, `nodes_subset`. The entries of the
lists in the head are rendered with their commas, so it is with these that they have to fit.
-/

namespace VerilogLayout

namespace Render

open Node

variable {S : Comment → Prop}

/-! ## The parts of a module -/

/-- All nodes of the parts of a module. -/
def ModuleParts.nodes (parts : ModuleParts) : List Node :=
  parts.attributes ++ parts.keyword.toList ++ parts.name.toList ++ parts.parameters.toList ++
    parts.ports.toList ++ parts.headEnd.toList ++ parts.items ++ parts.close.toList

/-- One more child adds no other node to the parts of a module. -/
theorem ModuleParts.nodes_add_subset (parts : ModuleParts) (node : Node) :
    (parts.add node).nodes ⊆ parts.nodes ++ [node] := by
  intro other hother
  unfold ModuleParts.add at hother
  split_ifs at hother
  all_goals
    simp only [nodes, List.mem_append, Option.mem_toList] at hother ⊢
    grind

/-- The parts of a module are among its children. -/
theorem ModuleParts.nodes_subset (children : List Node) :
    (ModuleParts.ofChildren children).nodes ⊆ children := by
  -- The children are added one by one to the parts that are there already.
  have hstep : ∀ parts : ModuleParts,
      (children.foldl ModuleParts.add parts).nodes ⊆ parts.nodes ++ children := by
    induction children with
    | nil => exact fun parts => List.subset_append_left _ _
    | cons node rest ih =>
        intro parts
        have hhead : (parts.add node).nodes ⊆ parts.nodes ++ node :: rest :=
          List.Subset.trans (parts.nodes_add_subset node) (List.append_subset.2
            ⟨List.subset_append_left _ _, List.subset_append_of_subset_right _
              (List.cons_subset.2 ⟨List.mem_cons_self, List.nil_subset _⟩)⟩)
        have htail : rest ⊆ parts.nodes ++ node :: rest :=
          List.subset_append_of_subset_right _ (List.subset_cons_self _ _)
        exact List.Subset.trans (ih (parts.add node)) (List.append_subset.2 ⟨hhead, htail⟩)
  exact hstep {}

/-- All nodes of the parts of a module lie in `S`. -/
structure ModuleParts.Within (S : Comment → Prop) (parts : ModuleParts) : Prop where
  attributes : AllWithin S parts.attributes
  keyword : ∀ node ∈ parts.keyword, Render.Within S node
  name : ∀ node ∈ parts.name, Render.Within S node
  parameters : ∀ node ∈ parts.parameters, Render.Within S node
  ports : ∀ node ∈ parts.ports, Render.Within S node
  headEnd : ∀ node ∈ parts.headEnd, Render.Within S node
  items : AllWithin S parts.items
  close : ∀ node ∈ parts.close, Render.Within S node

/-- The parts of a module are good if its children are. -/
theorem within_parts {children : List Node} (h : AllWithin S children) :
    (ModuleParts.ofChildren children).Within S := by
  have hall := h.subset (ModuleParts.nodes_subset children)
  simp only [ModuleParts.nodes, allWithin_append, allWithin_toList] at hall
  obtain ⟨⟨⟨⟨⟨⟨⟨hattributes, hkeyword⟩, hname⟩, hparameters⟩, hports⟩, hheadEnd⟩, hitems⟩,
    hclose⟩ := hall
  exact ⟨hattributes, hkeyword, hname, hparameters, hports, hheadEnd, hitems, hclose⟩

/-- The parts of a module that phrases are written from are among its children. -/
structure ModuleParts.MadeOf (children : List Node) (parts : ModuleParts) : Prop where
  parameters : ∀ node ∈ parts.parameters,
    node ∈ children ∧ node.kind? = some .moduleParameterPortList
  ports : ∀ node ∈ parts.ports, node ∈ children ∧
    (node.kind? = some .listOfPortDeclarations ∨ node.kind? = some .listOfPorts)
  items : parts.items ⊆ children

/-- One more child leaves the parts of a module made of the children. -/
theorem ModuleParts.MadeOf.add {children : List Node} {parts : ModuleParts}
    (h : parts.MadeOf children) {node : Node} (hnode : node ∈ children) :
    (parts.add node).MadeOf children := by
  have hitems : parts.items ++ [node] ⊆ children :=
    List.append_subset.2 ⟨h.items, List.cons_subset.2 ⟨hnode, List.nil_subset _⟩⟩
  unfold ModuleParts.add
  split
  · split
    · exact { h with }
    · exact { h with }
  · split
    · split
      · next hkind =>
          refine { h with parameters := ?_ }
          rintro other ⟨rfl⟩
          exact ⟨hnode, hkind⟩
      · next hkind =>
          refine { h with ports := ?_ }
          rintro other ⟨rfl⟩
          exact ⟨hnode, .inl hkind⟩
      · next hkind =>
          refine { h with ports := ?_ }
          rintro other ⟨rfl⟩
          exact ⟨hnode, .inr hkind⟩
      · split
        · exact { h with }
        · split
          · exact { h with }
          · exact { h with items := hitems }
    · split
      · exact { h with }
      · exact { h with items := hitems }

/-- The parts of a module are made of its children. -/
theorem madeOf_parts (children : List Node) :
    (ModuleParts.ofChildren children).MadeOf children := by
  have hstep : ∀ nodes, nodes ⊆ children → ∀ parts : ModuleParts, parts.MadeOf children →
      (nodes.foldl ModuleParts.add parts).MadeOf children := by
    intro nodes
    induction nodes with
    | nil => exact fun _ parts hparts => hparts
    | cons node rest ih =>
        intro hsubset parts hparts
        obtain ⟨hnode, hrest⟩ := List.cons_subset.1 hsubset
        exact ih hrest (parts.add node) (hparts.add hnode)
  exact hstep children (List.Subset.refl _) {} ⟨nofun, nofun, List.nil_subset _⟩

/-! ## Heads -/

/-- A head with a list of parameters or ports, if the module has one. -/
def headList (write : Node → Open → Render Open) (list? : Option Node) (head : Open) :
    Render Open :=
  match list? with
  | some list => write list head
  | none => pure head

/-- A module is its head, with the lists in it, its items and its closing keyword. -/
theorem moduleDeclaration_eq (format : Formatter) (node : Node) (level : Int) :
    moduleDeclaration format node level = (do
      let parts := ModuleParts.ofChildren node.children
      let head ← headList (parameterList format · level) parts.parameters (moduleHead parts level)
      let head ← headList (portList format · level) parts.ports head
      let comments ← endOfLine level (head.pending ++ parts.headEnd.toList)
      let lines ← items format (level + 1) parts.items
      let close ← moduleEnd parts.close level
      pure (head.above ++ head.line ++ ";" ++ comments ++ "\n" ++ lines ++ close)) := by
  unfold moduleDeclaration headList
  generalize ModuleParts.ofChildren node.children = parts
  obtain ⟨attributes, keyword, name, parameters, ports, headEnd, items, close⟩ := parts
  cases parameters <;> cases ports <;> rfl

/-- What holds of a head and is kept by the list in it holds behind the list. -/
theorem keeps_headList {P : List Comment → Open → Prop} {write : Node → Open → Render Open}
    {list? : Option Node} (hwrite : ∀ list ∈ list?, ∀ before head, P before head →
      Keeps S (write list head) fun taken result => P (before ++ taken) result)
    {before : List Comment} {head : Open} (hhead : P before head) :
    Keeps S (headList write list? head) fun taken result => P (before ++ taken) result := by
  cases list? with
  | some list => exact hwrite list rfl before head hhead
  | none => exact .pure (by rwa [List.append_nil])

theorem splitClosing_fst_subset (nodes : List Node) : (splitClosing nodes).1 ⊆ nodes := by
  intro child hmem
  unfold splitClosing at hmem
  split at hmem
  · split at hmem
    · exact (List.dropLast_sublist _).subset hmem
    · exact hmem
  · exact hmem

theorem mem_of_splitClosing_snd {nodes : List Node} {last : Node}
    (h : (splitClosing nodes).2 = some last) : last ∈ nodes := by
  unfold splitClosing at h
  split at h
  · next found hlast =>
      split at h
      · obtain rfl := Option.some.inj h
        exact List.mem_of_getLast? hlast
      · cases h
  · cases h

theorem within_splitClosing {nodes : List Node} (h : AllWithin S nodes) :
    AllWithin S (splitClosing nodes).1 ∧ ∀ node ∈ (splitClosing nodes).2, Within S node :=
  ⟨h.subset (splitClosing_fst_subset nodes),
    fun node hnode => h node (mem_of_splitClosing_snd hnode)⟩

end Render

namespace Standing

open Node Render

variable (standing : Standing) {S : Comment → Prop} (level : Int)

variable (S) in
/-- A head that is being written: its comments stand in it or are still pending. -/
def InHead (comments : List Comment) (head : Open) : Prop :=
  standing.text comments (head.above ++ head.line) ∧ AllWithin S head.pending

theorem inHead_moduleHead {parts : ModuleParts} (h : parts.Within S) :
    standing.InHead S [] (moduleHead parts level) :=
  ⟨standing.code _, allWithin_append.2 ⟨allWithin_append.2
    ⟨h.attributes, allWithin_toList.2 h.keyword⟩, allWithin_toList.2 h.name⟩⟩

theorem writes_portNameLines {nodes : List Node} (h : AllWithin S nodes)
    {separator : Option Node} (hseparator : ∀ token ∈ separator, Within S token) :
    standing.Writes S (portNameLines level separator nodes) := by
  induction nodes with
  | nil => exact standing.writes_pure _
  | cons node rest ih =>
      obtain ⟨hnode, hrest⟩ := allWithin_cons.1 h
      refine (standing.writesLine_endOfLine (allWithin_cons.2
        ⟨hnode, allWithin_toList.2 hseparator⟩) level).bind fun first comments hfirst => ?_
      refine (ih hrest).bind fun second others hsecond => .pure ?_
      simp only [List.append_assoc, List.append_nil]
      exact .after _ (.after _ (.after _ (hfirst.above hsecond)))

theorem writes_portNameGroups {groups : List Group} (h : GroupsWithin S groups) :
    standing.Writes S (portNameGroups level groups) := by
  induction groups with
  | nil => exact standing.writes_pure _
  | cons group rest ih =>
      obtain ⟨hgroup, hrest⟩ := groupsWithin_cons.1 h
      obtain ⟨hitems, hseparator⟩ := allWithin_append.1 hgroup
      refine (standing.writes_portNameLines level hitems (allWithin_toList.1 hseparator)).bind
        fun first lines hfirst => ?_
      refine (ih hrest).bind fun second others hsecond => .pure ?_
      rw [List.append_nil]
      exact hfirst.append hsecond

/-- The comments behind `endmodule`: all but a first line comment stand below. -/
theorem text_closingComments (indent : Text) (comments : List Comment) :
    standing.text comments ((closingComments indent comments).1 ++ ("\n" ++
      (closingComments indent comments).2)) := by
  unfold closingComments
  split
  · exact standing.code _
  · next comment rest =>
      split
      · simp only [List.append_assoc]
        have hbelow := (standing.text_emitted indent rest).after "\n"
        exact .after " " (standing.comment comment (fun _ => rfl) hbelow)
      · rw [List.nil_append]
        exact .after _ (standing.text_emitted indent _)

theorem writes_moduleEnd {close : Option Node} (h : ∀ node ∈ close, Within S node) :
    standing.Writes S (moduleEnd close level) := by
  unfold moduleEnd
  split
  · exact standing.writes_pure _
  · next token =>
      refine (standing.writes_emit (h token rfl).leading _).bind fun first front hfirst => ?_
      refine (keeps_take (h token rfl).trailing).bind fun second given hgiven => .pure ?_
      subst hgiven
      simp only [List.append_assoc, List.append_nil]
      exact hfirst.append (.after _ (.after _ (standing.text_closingComments _ given)))

variable {standing}

section
variable {format : Formatter} (hformat : standing.Formats S format)
include hformat

theorem writes_formatAll {nodes : List Node} {terminator : Option Node}
    (hfits : ∀ node ∈ nodes, standing.fits node terminator) (h : AllWithin S nodes)
    (hterminator : ∀ token ∈ terminator, Within S token) :
    standing.Writes S (formatAll format level terminator nodes) := by
  induction nodes with
  | nil => exact standing.writes_pure _
  | cons node rest ih =>
      obtain ⟨hnode, hrest⟩ := allWithin_cons.1 h
      obtain ⟨hfirst, hothers⟩ := List.forall_mem_cons.1 hfits
      refine (hformat node level terminator hfirst hnode hterminator).bind
        fun first text htext => ?_
      refine (ih hothers hrest).bind fun second others hsecond => .pure ?_
      rw [List.append_nil]
      exact htext.append hsecond

theorem writes_declarationLines {groups : List Group}
    (hfits : ∀ group ∈ groups, ∀ entry ∈ group.items, standing.fits entry group.separator)
    (h : GroupsWithin S groups) :
    standing.Writes S (declarationLines format level groups) := by
  induction groups with
  | nil => exact standing.writes_pure _
  | cons group rest ih =>
      obtain ⟨hgroup, hrest⟩ := groupsWithin_cons.1 h
      obtain ⟨hitems, hseparator⟩ := allWithin_append.1 hgroup
      obtain ⟨hfirst, hothers⟩ := List.forall_mem_cons.1 hfits
      refine (writes_formatAll level hformat hfirst hitems (allWithin_toList.1 hseparator)).bind
        fun first lines hlines => ?_
      refine (ih hothers hrest).bind fun second others hsecond => .pure ?_
      rw [List.append_nil]
      exact hlines.append hsecond

variable {list : Node} (hfits : standing.fits list none) (h : Within S list)
include hfits h

theorem keeps_parameterList (hkind : list.kind? = some .moduleParameterPortList)
    {before : List Comment} {head : Open} (hhead : standing.InHead S before head) :
    Keeps S (parameterList format list level head) fun taken result =>
      standing.InHead S (before ++ taken) result := by
  have hentries := standing.entries hfits (by rw [is, hkind]; rfl)
  unfold parameterList
  refine (standing.writesLine_endOfLine (allWithin_append.2
    ⟨hhead.2, h.children.subset (List.take_subset _ _)⟩) level).bind fun first comments hfirst => ?_
  refine (writes_declarationLines _ hformat hentries
    ((h.children.subset (between_subset _ _ _)).groups ",")).bind fun second lines hsecond => ?_
  refine (keeps_require _).bind fun third close hclose => .pure ?_
  obtain ⟨rfl, hclose⟩ := hclose
  refine ⟨?_, allWithin_cons.2 ⟨h.children _ (List.mem_of_getLast? hclose), allWithin_nil⟩⟩
  have hall := hhead.1.append (.after " #(" (hfirst.above (hsecond.before
    (indentFor level ++ ")"))))
  simpa using hall

theorem keeps_portList {before : List Comment} {head : Open}
    (hhead : standing.InHead S before head) :
    Keeps S (portList format list level head) fun taken result =>
      standing.InHead S (before ++ taken) result := by
  have hgroups := (h.children.subset (between_subset _
    (through (indexOf? "(" list.children)) (list.children.length - 1))).groups ","
  unfold portList
  dsimp only
  split
  · refine .pure ⟨?_, allWithin_append.2 ⟨hhead.2, h.children⟩⟩
    simpa using hhead.1.before " ()"
  · refine (standing.writesLine_endOfLine (allWithin_append.2
      ⟨hhead.2, h.children.subset (List.take_subset _ _)⟩) level).bind
        fun first comments hfirst => ?_
    have hopen : ∀ m, standing.Writes S m → Keeps S
        (do
          let lines ← m
          pure (Open.mk (head.above ++ head.line ++ " (" ++ comments ++ "\n" ++ lines)
            (indentFor level ++ ")") list.children.getLast?.toList))
        fun more result => standing.InHead S (before ++ (first ++ more)) result := by
      intro m hm
      refine hm.bind fun second lines hsecond => .pure ⟨?_, h.children.getLast?⟩
      have hall := hhead.1.append (.after " (" (hfirst.above (hsecond.before
        (indentFor level ++ ")"))))
      simpa using hall
    split
    · next hkind =>
        have hentries := standing.entries hfits (by rw [is, hkind]; rfl)
        exact hopen _ (writes_declarationLines _ hformat hentries hgroups)
    · exact hopen _ (standing.writes_portNameGroups _ hgroups)

end

/-! ## Declarations and regions -/

section
variable {format : Formatter} (hformat : standing.Formats S format) {node : Node}
  (h : standing.Holds S node)
include hformat h

theorem writes_moduleDeclaration : standing.Writes S (moduleDeclaration format node level) := by
  have hparts := within_parts h.within.children
  have hmade := madeOf_parts node.children
  rw [moduleDeclaration_eq]
  refine (keeps_headList (P := standing.InHead S) (fun list hlist before head hhead => ?_)
    (standing.inHead_moduleHead level hparts)).bind fun first head hfirst => ?_
  · obtain ⟨hmem, hkind⟩ := hmade.parameters list hlist
    exact keeps_parameterList level hformat (h.fits list hmem) (hparts.parameters list hlist) hkind
      hhead
  refine (keeps_headList (P := standing.InHead S) (fun list hlist before head hhead => ?_)
    hfirst).bind fun second head hsecond => ?_
  · exact keeps_portList level hformat (h.fits list (hmade.ports list hlist).1)
      (hparts.ports list hlist) hhead
  refine (standing.writesLine_endOfLine (allWithin_append.2
    ⟨hsecond.2, allWithin_toList.2 hparts.headEnd⟩) level).bind fun third comments hthird => ?_
  refine (writes_items hformat _ fun item hmem => h.of_mem (hmade.items hmem)).bind
    fun fourth lines hfourth => ?_
  refine (standing.writes_moduleEnd level hparts.close).bind fun fifth close hfifth => .pure ?_
  have hall := hsecond.1.append (.after ";" (hthird.above (hfourth.append hfifth)))
  simpa using hall

/-- A block between keywords writes the comments that it takes, in their order. -/
theorem writes_keywordBlock : standing.Writes S (keywordBlock format node level) := by
  obtain ⟨hchildren, hclose⟩ := within_splitClosing h.within.children
  unfold keywordBlock
  dsimp only
  refine (standing.writesLine_endOfLine (hchildren.subset (List.take_subset _ _)) level).bind
    fun first comments hfirst => ?_
  refine (writes_items hformat _ fun child hmem =>
    h.of_mem (splitClosing_fst_subset _ (List.mem_of_mem_drop hmem))).bind
      fun second lines hsecond => ?_
  split
  · refine (standing.writesLines_closingLine hclose _ level (by simp)).bind
      fun third last hthird => .pure ?_
    simp only [List.append_assoc, List.append_nil]
    exact .after _ (hfirst.above (hsecond.append hthird.1))
  · simp only [pure_bind, List.append_assoc, List.append_nil]
    refine .pure ?_
    rw [List.append_nil]
    exact .after _ (hfirst.above hsecond)

end

/-- An empty description has taken no comment, so it can be left out. -/
theorem writes_sourceText (hS : ∀ c, S c → standing.isGood c) {format : Formatter}
    (hformat : standing.Formats S format) {nodes : List Node}
    (h : ∀ node ∈ nodes, standing.fits node none ∧ Within S node) (isFirst : Bool) :
    standing.Writes S (sourceText format level isFirst nodes) := by
  induction nodes generalizing isFirst with
  | nil => exact standing.writes_pure _
  | cons node rest ih =>
      obtain ⟨⟨hfits, hnode⟩, hrest⟩ := List.forall_mem_cons.1 h
      unfold sourceText
      refine (keeps_good hS (hformat node level none hfits hnode (by simp))).bind
        fun first block hfirst => ?_
      obtain ⟨hgood, hfirst⟩ := hfirst
      dsimp only
      split
      · next hempty =>
          rw [List.isEmpty_iff.1 hempty] at hfirst
          obtain rfl := standing.eq_nil hgood hfirst
          exact ih hrest isFirst
      · refine (ih hrest false).bind fun second others hsecond => .pure ?_
        simp only [List.append_assoc, List.append_nil]
        exact .after _ (hfirst.append hsecond)

end Standing
end VerilogLayout

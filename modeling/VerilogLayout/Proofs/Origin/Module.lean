import VerilogLayout.Proofs.Comments.Module
import VerilogLayout.Proofs.Origin.Instance
import VerilogLayout.Proofs.Origin.Statement

/-!
# Modules and regions draw on the stock

The parts that a module is sorted into are its children, so the stock has what they bring along:
`stocked_parts`. The head passes through the lists of parameters and ports, and `DrawsHead` is what
each of them keeps.
-/

namespace VerilogLayout.Render

open Node
open Text (Drawn drawn_nil drawn_append drawn_added drawn_space drawn_indentFor)

variable {stock : Text}

/-! ## The parts of a module -/

/-- The stock has all that the parts of a module bring along. -/
structure ModuleParts.Stocked (stock : Text) (parts : ModuleParts) : Prop where
  attributes : AllStocked stock parts.attributes
  keyword : AllStocked stock parts.keyword.toList
  name : AllStocked stock parts.name.toList
  parameters : AllStocked stock parts.parameters.toList
  ports : AllStocked stock parts.ports.toList
  headEnd : AllStocked stock parts.headEnd.toList
  items : AllStocked stock parts.items
  close : AllStocked stock parts.close.toList

theorem stocked_parts {children : List Node} (h : AllStocked stock children) :
    (ModuleParts.ofChildren children).Stocked stock := by
  have hall := h.subset (ModuleParts.nodes_subset children)
  simp only [AllStocked, ModuleParts.nodes, List.forall_mem_append] at hall
  obtain ⟨⟨⟨⟨⟨⟨⟨hattributes, hkeyword⟩, hname⟩, hparameters⟩, hports⟩, hheadEnd⟩, hitems⟩,
    hclose⟩ := hall
  exact ⟨hattributes, hkeyword, hname, hparameters, hports, hheadEnd, hitems, hclose⟩

/-- A closing keyword is a token that starts with `end`. -/
theorem isToken_of_splitClosing {nodes : List Node} {last : Node}
    (h : (splitClosing nodes).2 = some last) :
    last.isToken ∧ Text.startsWith last.lexeme "end" := by
  unfold splitClosing at h
  split at h
  · split at h
    · next found hlast hword =>
        obtain rfl := Option.some.inj h
        exact Bool.and_eq_true_iff.1 hword
    · cases h
  · cases h

/-! ## Heads -/

/-- A head that is being written is drawn from the stock, and so is what its pending nodes bring
along. -/
structure DrawsHead (stock : Text) (head : Open) : Prop where
  above : Drawn stock head.above
  line : Drawn stock head.line
  pending : AllStocked stock head.pending

theorem drawn_optionalText {node? : Option Node} (h : AllStocked stock node?.toList) :
    Drawn stock (optionalText node?) := by
  cases node? with
  | none => exact drawn_nil
  | some node => exact (h node List.mem_cons_self).drawn_text

theorem drawsHead_moduleHead {parts : ModuleParts} (h : parts.Stocked stock) (level : Int) :
    DrawsHead stock (moduleHead parts level) := by
  refine ⟨drawn_nil, ?_, (h.attributes.append h.keyword).append h.name⟩
  refine drawn_append.2 ⟨drawn_append.2 ⟨drawn_indentFor level, ?_⟩, ?_⟩
  · split
    · exact drawn_nil
    · exact drawn_append.2 ⟨h.attributes.drawn_spacedText, drawn_space⟩
  · have htitle := drawn_append.2 ⟨drawn_append.2 ⟨drawn_optionalText h.keyword, drawn_space⟩,
      drawn_optionalText h.name⟩
    exact htitle.of_ink (Text.ink_trimRight _)

theorem draws_portNameLines {nodes : List Node} (h : AllStocked stock nodes) (level : Int)
    {separator : Option Node} (hseparator : AllStocked stock separator.toList) :
    Draws stock (portNameLines level separator nodes) := by
  induction nodes with
  | nil => exact .pure drawn_nil
  | cons node rest ih =>
      obtain ⟨hnode, hrest⟩ := List.forall_mem_cons.1 h
      refine (draws_endOfLine (List.forall_mem_cons.2 ⟨hnode, hseparator⟩) level).bind
        fun comments hcomments => ?_
      refine (ih hrest).map fun others hothers => ?_
      simp only [drawn_append, drawn_indentFor, true_and]
      exact ⟨⟨⟨⟨hnode.drawn_text, drawn_comma separator⟩, hcomments⟩, drawn_added (by decide)⟩,
        hothers⟩

theorem draws_portNameGroups {groups : List Group} (h : GroupsStocked stock groups) (level : Int) :
    Draws stock (portNameGroups level groups) := by
  induction groups with
  | nil => exact .pure drawn_nil
  | cons group rest ih =>
      obtain ⟨⟨hitems, hseparator⟩, hrest⟩ := List.forall_mem_cons.1 h
      refine (draws_portNameLines hitems level hseparator.toList).bind fun lines hlines => ?_
      exact (ih hrest).map fun others hothers => drawn_append.2 ⟨hlines, hothers⟩

/-- Comments at the end of a list are drawn from the stock, in front and behind. -/
theorem drawn_closingComments {comments : List Comment} (h : ∀ c ∈ comments, c.text ⊆ stock)
    {indent : Text} (hindent : Drawn stock indent) :
    Drawn stock (closingComments indent comments).1 ∧
      Drawn stock (closingComments indent comments).2 := by
  unfold closingComments
  split
  · exact ⟨drawn_nil, drawn_nil⟩
  · next comment rest =>
      obtain ⟨hcomment, hrest⟩ := List.forall_mem_cons.1 h
      split
      · exact ⟨drawn_append.2 ⟨drawn_space, Text.drawn_stock hcomment⟩,
          drawn_emitted hrest hindent⟩
      · exact ⟨drawn_nil, drawn_emitted h hindent⟩

theorem draws_moduleEnd {close : Option Node} (h : AllStocked stock close.toList) (level : Int) :
    Draws stock (moduleEnd close level) := by
  cases close with
  | none => exact .pure drawn_nil
  | some token =>
      have htoken := h token List.mem_cons_self
      refine (draws_emit htoken.within.leading (drawn_indentFor _)).bind fun front hfront => ?_
      refine (yields_take token.trailing).map fun given hgiven => ?_
      obtain ⟨hbehind, hbelow⟩ := drawn_closingComments
        (fun c hc => htoken.within.trailing c (hgiven hc)) (drawn_indentFor level)
      simp only [drawn_append, drawn_indentFor, and_true]
      exact ⟨⟨⟨⟨hfront, drawn_added (by decide)⟩, hbehind⟩, drawn_added (by decide)⟩, hbelow⟩

section
variable {format : Formatter} (hformat : FormatterDraws stock format)
include hformat

theorem draws_formatAll {nodes : List Node} (h : AllStocked stock nodes) (level : Int)
    {terminator : Option Node} (hend : EndsStocked stock terminator) :
    Draws stock (formatAll format level terminator nodes) := by
  induction nodes with
  | nil => exact .pure drawn_nil
  | cons node rest ih =>
      obtain ⟨hnode, hrest⟩ := List.forall_mem_cons.1 h
      refine (hformat node level terminator hnode hend).bind fun text htext => ?_
      exact (ih hrest).map fun others hothers => drawn_append.2 ⟨htext, hothers⟩

theorem draws_declarationLines {groups : List Group} (h : GroupsStocked stock groups)
    (level : Int) : Draws stock (declarationLines format level groups) := by
  induction groups with
  | nil => exact .pure drawn_nil
  | cons group rest ih =>
      obtain ⟨⟨hitems, hseparator⟩, hrest⟩ := List.forall_mem_cons.1 h
      refine (draws_formatAll hformat hitems level hseparator).bind fun lines hlines => ?_
      exact (ih hrest).map fun others hothers => drawn_append.2 ⟨hlines, hothers⟩

theorem yields_parameterList {node : Node} (h : node.Stocked stock) (level : Int) {head : Open}
    (hhead : DrawsHead stock head) :
    Yields (parameterList format node level head) (DrawsHead stock) := by
  unfold parameterList
  refine (draws_endOfLine (hhead.pending.append (h.children.subset (List.take_subset _ _)))
    level).bind fun comments hcomments => ?_
  refine (draws_declarationLines hformat
    ((h.children.subset (between_subset _ _ _)).groups "," (by decide)) _).bind
      fun lines hlines => ?_
  refine (yields_require _).bind fun close hclose => .pure ⟨?_, ?_, ?_⟩
  · simp only [drawn_append]
    exact ⟨⟨⟨⟨⟨hhead.above, hhead.line⟩, drawn_added (by decide)⟩, hcomments⟩,
      drawn_added (by decide)⟩, hlines⟩
  · exact drawn_append.2 ⟨drawn_indentFor level, drawn_added (by decide)⟩
  · exact List.forall_mem_singleton.2 (h.children close (List.mem_of_getLast? hclose))

theorem yields_portList {node : Node} (h : node.Stocked stock) (level : Int) {head : Open}
    (hhead : DrawsHead stock head) :
    Yields (portList format node level head) (DrawsHead stock) := by
  have hgroups := (h.children.subset (between_subset node.children
    (through (indexOf? "(" node.children)) (node.children.length - 1))).groups "," (by decide)
  unfold portList
  dsimp only
  split
  · exact .pure ⟨hhead.above, drawn_append.2 ⟨hhead.line, drawn_added (by decide)⟩,
      hhead.pending.append h.children⟩
  · refine (draws_endOfLine (hhead.pending.append (h.children.subset (List.take_subset _ _)))
      level).bind fun comments hcomments => ?_
    have hopen : ∀ lines, Drawn stock lines → DrawsHead stock
        ⟨head.above ++ head.line ++ " (" ++ comments ++ "\n" ++ lines, indentFor level ++ ")",
          node.children.getLast?.toList⟩ := by
      intro lines hlines
      refine ⟨?_, drawn_append.2 ⟨drawn_indentFor level, drawn_added (by decide)⟩,
        stocked_getLast? h.children⟩
      simp only [drawn_append]
      exact ⟨⟨⟨⟨⟨hhead.above, hhead.line⟩, drawn_added (by decide)⟩, hcomments⟩,
        drawn_added (by decide)⟩, hlines⟩
    split
    · exact (draws_declarationLines hformat hgroups _).map hopen
    · exact (draws_portNameGroups hgroups _).map hopen

omit hformat in
/-- A list that the module has is written, and one that it does not have changes nothing. -/
theorem yields_headList {write : Node → Open → Render Open} {list? : Option Node}
    (hwrite : ∀ list ∈ list?, ∀ head, DrawsHead stock head →
      Yields (write list head) (DrawsHead stock)) {head : Open} (hhead : DrawsHead stock head) :
    Yields (headList write list? head) (DrawsHead stock) := by
  cases list? with
  | some list => exact hwrite list rfl head hhead
  | none => exact .pure hhead

/-! ## Declarations and regions -/

theorem draws_moduleDeclaration {node : Node} (h : node.Stocked stock) (level : Int) :
    Draws stock (moduleDeclaration format node level) := by
  have hparts := stocked_parts h.children
  rw [moduleDeclaration_eq]
  refine (yields_headList (fun list hlist head hhead => yields_parameterList hformat
    (hparts.parameters list (Option.mem_toList.2 hlist)) level hhead)
      (drawsHead_moduleHead hparts level)).bind fun first hfirst => ?_
  refine (yields_headList (fun list hlist head hhead => yields_portList hformat
    (hparts.ports list (Option.mem_toList.2 hlist)) level hhead) hfirst).bind
      fun second hsecond => ?_
  refine (draws_endOfLine (hsecond.pending.append hparts.headEnd) level).bind
    fun comments hcomments => ?_
  refine (draws_items hformat _ hparts.items).bind fun lines hlines => ?_
  refine (draws_moduleEnd hparts.close level).map fun close hclose => ?_
  simp only [drawn_append]
  exact ⟨⟨⟨⟨⟨⟨hsecond.above, hsecond.line⟩, drawn_added (by decide)⟩, hcomments⟩,
    drawn_added (by decide)⟩, hlines⟩, hclose⟩

theorem draws_sourceText {nodes : List Node} (h : AllStocked stock nodes) (level : Int)
    (isFirst : Bool) : Draws stock (sourceText format level isFirst nodes) := by
  induction nodes generalizing isFirst with
  | nil => exact .pure drawn_nil
  | cons node rest ih =>
      obtain ⟨hnode, hrest⟩ := List.forall_mem_cons.1 h
      unfold sourceText
      refine (hformat node level none hnode endsStocked_none).bind fun block hblock => ?_
      dsimp only
      split
      · exact ih hrest isFirst
      · refine (ih hrest false).map fun others hothers => ?_
        refine drawn_append.2 ⟨drawn_append.2 ⟨?_, hblock⟩, hothers⟩
        split
        · exact drawn_added (by decide)
        · exact drawn_nil

/-- The closing keyword of a region is no end of the file. -/
theorem draws_keywordBlock {node : Node} (h : node.Stocked stock) (level : Int) :
    Draws stock (keywordBlock format node level) := by
  have hchildren := h.children.subset (splitClosing_fst_subset node.children)
  have hclose : ∀ last ∈ (splitClosing node.children).2,
      last.Stocked stock ∧ Drawn stock last.lexeme := by
    intro last hlast
    have hstocked := h.children last (mem_of_splitClosing_snd hlast)
    obtain ⟨htoken, hword⟩ := isToken_of_splitClosing hlast
    refine ⟨hstocked, hstocked.drawn_lexeme htoken fun heq => ?_⟩
    rw [heq] at hword
    exact absurd hword (by decide)
  unfold keywordBlock
  dsimp only
  refine (draws_endOfLine (hchildren.subset (List.take_subset _ _)) level).bind
    fun comments hcomments => ?_
  refine (draws_items hformat _ (hchildren.subset (List.drop_subset _ _))).bind
    fun lines hlines => ?_
  have hhead := (hchildren.subset (List.take_subset (if node.kind? = some .generateRegion then 1
    else ((indexOf? ";" (splitClosing node.children).1).map (· + 1)).getD 1) _)).drawn_spacedText
  have hall : ∀ last, Drawn stock last → Drawn stock
      (spacedText ((splitClosing node.children).1.take (if node.kind? = some .generateRegion then 1
        else ((indexOf? ";" (splitClosing node.children).1).map (· + 1)).getD 1)) ++ comments ++
          "\n" ++ lines ++ last) := by
    intro last hlast
    simp only [drawn_append]
    exact ⟨⟨⟨⟨hhead, hcomments⟩, drawn_added (by decide)⟩, hlines⟩, hlast⟩
  split
  · next token htoken =>
      exact (draws_closingLine (fun last hlast => (hclose last hlast).1) (hclose token htoken).2
        level (List.forall_mem_nil _)).map hall
  · exact .pure (hall [] drawn_nil)

end
end VerilogLayout.Render

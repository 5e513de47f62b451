import VerilogLayout.Proofs.Comments.Standing

/-!
# Comments of statements

Every renderer of a statement writes the comments that it takes, provided that what it calls for
the phrases inside does. A block ends its line, so that an `else` can move up behind its `end`. A
statement that stands on the line of another phrase leaves that line open.
-/

namespace VerilogLayout

namespace Render

open Node

variable {S : Comment → Prop}

/-! ## The parts of a phrase -/

/-- Splitting off the block leaves a part of the children. -/
theorem splitBlock_fst_subset (children : List Node) : (splitBlock children).1 ⊆ children := by
  intro node hmem
  unfold splitBlock at hmem
  dsimp only at hmem
  split at hmem
  · split at hmem
    · exact List.mem_of_mem_drop ((List.dropLast_sublist _).subset hmem)
    · exact List.mem_of_mem_drop hmem
  · exact List.mem_of_mem_drop hmem

theorem mem_of_splitBlock_snd {children : List Node} {last : Node}
    (h : (splitBlock children).2 = some last) : last ∈ children := by
  unfold splitBlock at h
  dsimp only at h
  split at h
  · next found hlast =>
      split at h
      · obtain rfl := Option.some.inj h
        exact List.mem_of_mem_drop (List.mem_of_getLast? hlast)
      · simp at h
  · simp at h

/-- Splitting at the label leaves two parts of the nodes. -/
theorem splitLabel_subset (nodes : List Node) :
    (splitLabel nodes).1 ⊆ nodes ∧ (splitLabel nodes).2 ⊆ nodes := by
  unfold splitLabel
  split
  · split
    · exact ⟨List.take_subset _ _, List.drop_subset _ _⟩
    · exact ⟨List.nil_subset _, List.Subset.refl _⟩
  · exact ⟨List.nil_subset _, List.nil_subset _⟩

/-- The nodes around the branches of a condition are children of it. -/
theorem Branches.subset {children : List Node} {branches : Branches}
    (h : Branches.ofChildren? children = some branches) :
    branches.head ⊆ children ∧ branches.first ∈ children ∧
      ∀ second ∈ branches.second, second.1 ∈ children ∧ second.2 ∈ children := by
  simp only [Branches.ofChildren?, Option.bind_eq_bind, Option.bind_eq_some_iff] at h
  obtain ⟨⟨opening, closing⟩, -, first, hfirst, heq⟩ := h
  obtain rfl := Option.some.inj heq
  refine ⟨List.take_subset _ _, List.mem_of_getElem? hfirst, fun second hsecond => ?_⟩
  simp only [Option.mem_def, Option.bind_eq_some_iff] at hsecond
  obtain ⟨place, -, keyword, hkeyword, branch, hbranch, heq⟩ := hsecond
  obtain rfl := Option.some.inj heq
  exact ⟨List.mem_of_getElem? hkeyword, List.mem_of_getElem? hbranch⟩

end Render

namespace Standing

open Node Render

variable {standing : Standing} {S : Comment → Prop} {format : Formatter} {node statement : Node}
  (level : Int)

variable (standing) in
theorem writesLine_assignment (h : Within S node) {terminator : Option Node}
    (hterminator : ∀ token ∈ terminator, Within S token) :
    standing.WritesLine S (assignment node level terminator) :=
  (standing.writesLine_endOfLine
    (allWithin_cons.2 ⟨h, allWithin_toList.2 hterminator⟩) level).after _

section
variable (hformat : standing.Formats S format)
include hformat

/-! ## Blocks and bodies -/

theorem writesLines_block (h : standing.Holds S node) {lead trail : List Comment}
    (hlead : ∀ c ∈ lead, S c) (htrail : ∀ c ∈ trail, S c) :
    standing.WritesLines S (block format node level lead trail) := by
  unfold block
  refine (keeps_require _).bind fun first node' hfirst => ?_
  obtain ⟨rfl, hhead⟩ := hfirst
  have hinside := splitBlock_fst_subset node.children
  have hlabel := List.Subset.trans (splitLabel_subset (splitBlock node.children).1).1 hinside
  have hcomments : ∀ c ∈ lead ++ Node.commentsAll (node' :: (splitLabel
      (splitBlock node.children).1).1), S c := by
    refine List.forall_mem_append.2 ⟨hlead, AllWithin.commentsAll (allWithin_cons.2 ⟨?_, ?_⟩)⟩
    · exact (h.of_mem (List.mem_of_mem_head? hhead)).2
    · exact h.within.children.subset hlabel
  refine (standing.writesLine_inline hcomments _).bind fun second comments hsecond => ?_
  refine (writes_items hformat _ fun child hmem =>
    h.of_mem (hinside ((splitLabel_subset _).2 hmem))).bind fun third lines hthird => ?_
  refine (standing.writesLines_closingLine
    (fun last hlast => (h.of_mem (mem_of_splitBlock_snd hlast)).2) "end" level htrail).bind
      fun fourth close hfourth => .pure ⟨?_, ?_⟩
  · simp only [List.nil_append, List.append_assoc, List.append_nil]
    exact .after _ (hsecond.above (hthird.append hfourth.1))
  · exact getLast?_append_eq hfourth.2

/-- What follows a header has its comments in it, and a block among it ends its line. -/
theorem keeps_body (h : standing.fits statement none ∧ Within S statement)
    {comments : List Comment} (hcomments : ∀ c ∈ comments, S c) :
    Keeps S (body format statement level comments) fun taken result =>
      standing.text taken result.1 ∧ (result.2 → result.1.getLast? = some (.char '\n')) := by
  obtain ⟨hinner, -, hwrappers⟩ := within_unwrap h.2
  unfold body
  dsimp only
  split
  · refine (writesLines_block level hformat (.unwrap h.1 h.2) ?_ ?_).bind fun taken text htext =>
      .pure ⟨?_, fun _ => ?_⟩
    · exact List.forall_mem_append.2
        ⟨List.forall_mem_append.2 ⟨hcomments, mem_wrapperLeading hwrappers⟩, hinner.leading⟩
    · exact mem_allTrailing h.2
    · rw [List.append_nil]
      exact htext.1.after _
    · exact getLast?_append_eq htext.2
  · refine (standing.writesLine_inline hcomments _).bind fun first behind hbehind => ?_
    refine (hformat statement _ none h.1 h.2 (by simp)).bind fun second text htext =>
      .pure ⟨?_, by simp⟩
    simp only [List.append_assoc, List.append_nil]
    exact hbehind.above htext

/-- A statement behind its timing writes the comments handed to it and its own. -/
theorem writes_timedBody (h : standing.fits statement none ∧ Within S statement)
    {comments : List Comment} (hcomments : ∀ c ∈ comments, S c) :
    standing.Writes S (timedBody format statement level comments) := by
  have hplain : standing.Writes S (do pure (← body format statement level comments).1) :=
    (keeps_body level hformat h hcomments).bind fun taken result hresult =>
      .pure (by simpa using hresult.1)
  obtain ⟨hinner, -, hwrappers⟩ := within_unwrap h.2
  have hholds := Holds.unwrap h.1 h.2
  unfold timedBody
  dsimp only
  split
  · next control next others hchildren =>
      split
      · have hcontrol := (hholds.of_mem (hchildren ▸ List.mem_cons_self)).2
        have hlast := hholds.of_mem (hchildren ▸ List.mem_cons_of_mem control
          (List.getLast_mem (List.cons_ne_nil next others)))
        have hlead := List.forall_mem_append.2 ⟨List.forall_mem_append.2
          ⟨List.forall_mem_append.2 ⟨hcomments, mem_wrapperLeading hwrappers⟩, hinner.leading⟩,
          hcontrol⟩
        refine (keeps_body level hformat hlast hlead).bind fun taken result hresult => .pure ?_
        rw [List.append_nil]
        exact hresult.1.after _
      · exact hplain
  · exact hplain

theorem writes_procedural (h : standing.Holds S node) :
    standing.Writes S (procedural format node level) := by
  unfold procedural
  refine (keeps_require _).bind fun first keyword hkeyword => ?_
  obtain ⟨rfl, hhead⟩ := hkeyword
  refine (keeps_require _).bind fun second statement hstatement => ?_
  obtain ⟨rfl, hlast⟩ := hstatement
  have hkeyword := (h.of_mem (List.mem_of_mem_head? hhead)).2
  refine (writes_timedBody level hformat (h.of_mem (List.mem_of_getLast? hlast)) hkeyword).bind
    fun taken text htext => .pure ?_
  simpa using htext.after _

/-! ## Headers with bodies -/

variable (hS : ∀ c, S c → standing.isGood c)
include hS

theorem writes_caseStatement (h : standing.Holds S node) :
    standing.Writes S (caseStatement format node level) := by
  unfold caseStatement
  dsimp only
  split
  · next keyword others opening closing hchildren hparens =>
      have hclose : ∀ last ∈ node.children.getLast?.filter (fun last : Node =>
          last.isToken && Text.startsWith last.lexeme "endcase"), Within S last := by
        intro last hlast
        exact (h.of_mem (List.mem_of_getLast? (Option.mem_filter_iff.1 hlast).1)).2
      refine (standing.writesLine_endOfLine
        (h.within.children.subset (List.take_subset _ _)) level).bind
          fun first comments hfirst => ?_
      refine (writes_items hformat _ fun child hmem => h.of_mem ?_).bind
        fun second lines hsecond => ?_
      · split at hmem
        · exact List.mem_of_mem_drop ((List.dropLast_sublist _).subset hmem)
        · exact List.mem_of_mem_drop hmem
      refine (standing.writesLines_closingLine hclose _ level (by simp)).bind
        fun third last hthird => .pure ?_
      simp only [List.append_assoc, List.append_nil]
      exact .after _ (hfirst.above (hsecond.append hthird.1))
  · exact standing.writes_woven hS h.within

theorem writes_loop (h : standing.Holds S node) :
    standing.Writes S (loop format node level) := by
  unfold loop
  split
  · next first second others hchildren =>
      have hhead : AllWithin S (first :: second :: others).dropLast :=
        h.within.children.subset (hchildren ▸ (List.dropLast_sublist _).subset)
      have hlast := h.of_mem (hchildren ▸ List.mem_cons_of_mem first
        (List.getLast_mem (List.cons_ne_nil second others)))
      refine (keeps_body level hformat hlast hhead.commentsAll).bind
        fun taken result hresult => .pure ?_
      rw [List.append_nil]
      exact hresult.1.after _
  · exact standing.writes_woven hS h.within

/-- A simple statement loses its indentation and its line feeds. -/
theorem writesLine_inlineStatement (h : standing.fits statement none ∧ Within S statement) :
    standing.WritesLine S (inlineStatement format statement level) := by
  refine (keeps_good hS (hformat statement level none h.1 h.2 (by simp))).bind
    fun taken text htext => .pure ?_
  rw [List.append_nil]
  exact standing.dropLineFeeds htext.1 (standing.stripIndent level htext.1 htext.2)

/-- A sequence of statements writes the comments that it takes, in their order. -/
theorem writes_seqBlock (h : standing.Holds S node) :
    standing.Writes S (seqBlock format node level) := by
  have hnone : ∀ c ∈ ([] : List Comment), S c := by simp
  have hblock := (writesLines_block level hformat h hnone hnone).writes
  unfold seqBlock
  split
  · next first statement last hchildren =>
      split
      · obtain ⟨hfits, hwithin⟩ := h.of_mem (show statement ∈ node.children by simp [hchildren])
        exact (hformat statement level none hfits hwithin (by simp)).change hS
          fun taken text hgood htext => standing.stripIndent level hgood htext
      · exact hblock
  · exact hblock

theorem writes_generateBlock (h : standing.Holds S node) :
    standing.Writes S (generateBlock format node level) := by
  have hnone : ∀ c ∈ ([] : List Comment), S c := by simp
  unfold generateBlock
  split
  · exact (writesLines_block level hformat h hnone hnone).writes
  · exact (writes_items hformat level fun child hmem => h.of_mem hmem).change hS
      fun taken text hgood htext => standing.stripIndent level hgood htext

/-- Each condition of a chain writes its own comments; the induction is on the length of the
chain. -/
theorem writes_conditional (fuel : Nat) (h : standing.Holds S node) {extra : List Comment}
    (hextra : ∀ c ∈ extra, S c) :
    standing.Writes S (conditional format fuel node level extra) := by
  -- An else-if is rendered with the rest of the fuel and the comments of its else.
  induction fuel generalizing node extra with
  | zero => exact standing.writes_pure _
  | succ fuel ih =>
      unfold conditional
      split
      · next keyword others branches hchildren hbranches =>
          obtain ⟨hhead, hfirst, hsecond⟩ := Branches.subset hbranches
          have hlead := List.forall_mem_append.2
            ⟨hextra, (h.within.children.subset hhead).commentsAll⟩
          refine (keeps_good hS (keeps_body level hformat (h.of_mem hfirst) hlead)).bind
            fun taken result hresult => ?_
          obtain ⟨text, isBlock⟩ := result
          obtain ⟨hgood, htext, hblock⟩ := hresult
          have htitle := htext.after (header keyword.text branches.condition)
          have helse := standing.beforeElse level hgood htitle
            fun h => getLast?_append_eq (hblock h)
          dsimp only
          split
          · exact .pure (by simpa using htitle)
          · next elseToken branch hsome =>
              obtain ⟨htoken, hbranch⟩ := hsecond _ hsome
              have htoken := (h.of_mem htoken).2
              have hinner := h.of_mem_unwrap hbranch
              split
              · refine (ih hinner (List.forall_mem_append.2
                  ⟨htoken, hinner.within.leading⟩)).bind fun more rest hrest => .pure ?_
                rw [List.append_nil]
                exact (helse.before _).append hrest
              · refine (keeps_body level hformat (h.of_mem hbranch) htoken).bind
                  fun more rest hrest => .pure ?_
                rw [List.append_nil]
                exact helse.append hrest.1
      · exact standing.writes_woven hS h.within

theorem writesLine_caseItem (h : standing.Holds S node) :
    standing.WritesLine S (caseItem format node level) := by
  unfold caseItem
  split
  · exact (standing.writes_pure _).writesLine
  · next statement hlast =>
      have hstatement := h.of_mem (List.mem_of_getLast? hlast)
      have hhead := h.within.children.subset (List.dropLast_sublist _).subset
      refine (keeps_unwritten _).bind fun taken pending hnone => ?_
      subst hnone
      split
      · exact (writesLine_inlineStatement level hformat hS hstatement).after _
      · refine (keeps_body level hformat hstatement hhead.commentsAll).bind
          fun taken result hresult => .pure ?_
        rw [List.nil_append, List.append_nil]
        exact standing.opened (hresult.1.after _)

theorem writesLine_timingControl (h : standing.Holds S node) :
    standing.WritesLine S (timingControl format node level) := by
  unfold timingControl
  split
  · next control next others hchildren =>
      have hcontrol := (h.of_mem (hchildren ▸ List.mem_cons_self)).2
      have hstatement := h.of_mem (hchildren ▸ List.mem_cons_of_mem control
        (List.getLast_mem (List.cons_ne_nil next others)))
      dsimp only
      split
      · exact (writesLine_inlineStatement level hformat hS hstatement).after _
      · refine (keeps_body level hformat hstatement hcontrol).bind
          fun taken result hresult => .pure ?_
        rw [List.append_nil]
        exact standing.opened (hresult.1.after _)
  · exact (standing.writes_woven hS h.within).writesLine

end
end Standing
end VerilogLayout

import VerilogLayout.Proofs.Comments.Statement
import VerilogLayout.Proofs.Origin.Phrase

/-!
# Statements draw on the stock

A statement writes the words of its header, its bodies and closing lines, and cuts off nothing but
line feeds and indentation. Whatever a phrase is written by, it is given nodes of the statement, so
each renderer draws on the stock if the formatter that it is given does.
-/

namespace VerilogLayout.Render

open Node
open Text (Drawn drawn_nil drawn_append drawn_added drawn_space drawn_indentFor drawn_intercalate)

variable {stock : Text}

theorem stocked_wrapperLeading {wrappers : List Node} (h : AllStocked stock wrappers) :
    ∀ c ∈ wrapperLeading wrappers, c.text ⊆ stock :=
  mem_wrapperLeading fun wrapper hmem => (h wrapper hmem).within

theorem stocked_wrapperTrailing {wrappers : List Node} (h : AllStocked stock wrappers) :
    ∀ c ∈ wrapperTrailing wrappers, c.text ⊆ stock :=
  mem_wrapperTrailing fun wrapper hmem => (h wrapper hmem).within

theorem drawn_stripIndent {text : Text} (h : Drawn stock text) (level : Int) :
    Drawn stock (stripIndent text level) :=
  h.of_ink (ink_stripIndent text level)

theorem drawn_dropLast {text : Text} (h : Drawn stock text) : Drawn stock (Text.dropLast text) :=
  h.subset (List.dropLast_sublist text).subset

/-- The condition stands between the parentheses. -/
theorem Branches.condition_subset {children : List Node} {branches : Branches}
    (h : Branches.ofChildren? children = some branches) : branches.condition ⊆ children := by
  simp only [Branches.ofChildren?, Option.bind_eq_bind, Option.bind_eq_some_iff] at h
  obtain ⟨⟨opening, closing⟩, -, first, -, heq⟩ := h
  obtain rfl := Option.some.inj heq
  exact between_subset _ _ _

theorem drawn_header {keyword : Text} (hkeyword : Drawn stock keyword) {condition : List Node}
    (hcondition : AllStocked stock condition) : Drawn stock (header keyword condition) := by
  simp only [header, drawn_append]
  exact ⟨⟨⟨hkeyword, drawn_added (by decide)⟩, hcondition.drawn_joinedText⟩,
    drawn_added (by decide)⟩

/-- A branch in front of another one adds the keyword between them and an indentation only. -/
theorem drawn_beforeElse {branch : Text} (h : Drawn stock branch) (isBlock : Bool) (level : Int) :
    Drawn stock (beforeElse branch isBlock level) := by
  unfold beforeElse
  split
  · exact drawn_append.2 ⟨drawn_dropLast h, drawn_added (by decide)⟩
  · exact drawn_append.2 ⟨drawn_append.2 ⟨h, drawn_indentFor level⟩, drawn_added (by decide)⟩

theorem drawn_labels {labels : List Node} (h : AllStocked stock labels) :
    Drawn stock
      (List.intercalate ", " ((groups "," labels).map fun group => joinedText group.items)) := by
  refine drawn_intercalate (drawn_added (by decide)) fun text htext => ?_
  obtain ⟨group, hgroup, rfl⟩ := List.mem_map.1 htext
  exact (h.groups "," (by decide) group hgroup).1.drawn_joinedText

theorem drawn_loopHeader {head : List Node} (h : AllStocked stock head) :
    Drawn stock (loopHeader head) := by
  unfold loopHeader
  split
  · next keyword others opening closing hparens =>
      have hclauses : ∀ clause ∈ (groups ";" (between (keyword :: others) (opening + 1)
          closing)).map fun group => joinedText group.items, Drawn stock clause := by
        intro clause hclause
        obtain ⟨group, hgroup, rfl⟩ := List.mem_map.1 hclause
        exact ((h.subset (between_subset _ _ _)).groups ";" (by decide) group
          hgroup).1.drawn_joinedText
      simp only [drawn_append]
      exact ⟨⟨⟨(h keyword List.mem_cons_self).drawn_text, drawn_added (by decide)⟩,
        drawn_intercalate (drawn_added (by decide)) hclauses⟩, drawn_added (by decide)⟩
  · exact (h _ List.mem_cons_self).drawn_text
  · exact h.drawn_spacedText

theorem draws_assignment {node : Node} (h : node.Stocked stock) (level : Int)
    {terminator : Option Node} (hend : EndsStocked stock terminator) :
    Draws stock (assignment node level terminator) :=
  (draws_endOfLine (List.forall_mem_cons.2 ⟨h, hend.toList⟩) level).map fun _ hcomments =>
    drawn_append.2 ⟨drawn_append.2 ⟨h.drawn_text, hend.drawn_terminatorText⟩, hcomments⟩

section
variable {format : Formatter} (hformat : FormatterDraws stock format)
include hformat

/-! ## Blocks and bodies -/

theorem draws_block {node : Node} (h : node.Stocked stock) (level : Int)
    {lead trail : List Comment} (hlead : ∀ c ∈ lead, c.text ⊆ stock)
    (htrail : ∀ c ∈ trail, c.text ⊆ stock) :
    Draws stock (block format node level lead trail) := by
  have hinside := h.children.subset (splitBlock_fst_subset node.children)
  unfold block
  refine (yields_require _).bind fun first hfirst => ?_
  dsimp only
  have hlabel := hinside.subset (splitLabel_subset (splitBlock node.children).1).1
  have hcomments : ∀ c ∈ lead ++ Node.commentsAll
      (first :: (splitLabel (splitBlock node.children).1).1), c.text ⊆ stock :=
    List.forall_mem_append.2 ⟨hlead, AllStocked.commentsAll
      (List.forall_mem_cons.2 ⟨h.children first (List.mem_of_head? hfirst), hlabel⟩)⟩
  refine (draws_inline hcomments (drawn_indentFor _)).bind fun comments hcomments => ?_
  refine (draws_items hformat _ (hinside.subset (splitLabel_subset _).2)).bind
    fun lines hlines => ?_
  refine (draws_closingLine (fun last hlast => h.children last (mem_of_splitBlock_snd hlast))
    (drawn_added (by decide)) level htrail).map fun close hclose => ?_
  simp only [drawn_append]
  refine ⟨⟨⟨⟨?_, hcomments⟩, drawn_added (by decide)⟩, hlines⟩, hclose⟩
  split
  · next colon name hnames =>
      rw [hnames] at hlabel
      refine drawn_append.2 ⟨drawn_added (by decide), (hlabel name ?_).drawn_text⟩
      exact List.mem_cons_of_mem _ List.mem_cons_self
  · exact drawn_added (by decide)

theorem draws_body {statement : Node} (h : statement.Stocked stock) (level : Int)
    {comments : List Comment} (hcomments : ∀ c ∈ comments, c.text ⊆ stock) :
    Yields (body format statement level comments) fun result => Drawn stock result.1 := by
  obtain ⟨hinner, -, hwrappers⟩ := h.unwrap
  unfold body
  dsimp only
  split
  · refine (draws_block hformat hinner level ?_ ?_).map fun text htext =>
      drawn_append.2 ⟨drawn_space, htext⟩
    · exact List.forall_mem_append.2 ⟨List.forall_mem_append.2
        ⟨hcomments, stocked_wrapperLeading hwrappers⟩, hinner.within.leading⟩
    · exact List.forall_mem_append.2 ⟨hinner.within.trailing, stocked_wrapperTrailing hwrappers⟩
  · refine (draws_inline hcomments (drawn_indentFor _)).bind fun behind hbehind => ?_
    exact (hformat statement _ none h endsStocked_none).map fun text htext =>
      drawn_append.2 ⟨drawn_append.2 ⟨hbehind, drawn_added (by decide)⟩, htext⟩

/-- A statement behind its timing is drawn from the statement and the comments. -/
theorem draws_timedBody {statement : Node} (h : statement.Stocked stock) (level : Int)
    {comments : List Comment} (hcomments : ∀ c ∈ comments, c.text ⊆ stock) :
    Draws stock (timedBody format statement level comments) := by
  have hplain : Draws stock (do pure (← body format statement level comments).1) :=
    (draws_body hformat h level hcomments).map fun _ hresult => hresult
  obtain ⟨hinner, -, hwrappers⟩ := h.unwrap
  unfold timedBody
  dsimp only
  split
  · next control next others hchildren =>
      split
      · have hall := hinner.children
        rw [hchildren] at hall
        obtain ⟨hcontrol, hrest⟩ := List.forall_mem_cons.1 hall
        have hlead := List.forall_mem_append.2 ⟨List.forall_mem_append.2
          ⟨List.forall_mem_append.2 ⟨hcomments, stocked_wrapperLeading hwrappers⟩,
            hinner.within.leading⟩, hcontrol.comments⟩
        exact (draws_body hformat (hrest _ (List.getLast_mem _)) level hlead).map
          fun result hresult =>
            drawn_append.2 ⟨drawn_append.2 ⟨drawn_space, hcontrol.drawn_text⟩, hresult⟩
      · exact hplain
  · exact hplain

/-- Line feeds and indentation are cut off. -/
theorem draws_inlineStatement {statement : Node} (h : statement.Stocked stock) (level : Int) :
    Draws stock (inlineStatement format statement level) := by
  refine (hformat statement level none h endsStocked_none).map fun text htext => ?_
  refine (drawn_stripIndent htext level).of_ink (Text.ink_dropRightWhile (fun c hc => ?_) _)
  rw [of_decide_eq_true hc]
  rfl

theorem draws_seqBlock {node : Node} (h : node.Stocked stock) (level : Int) :
    Draws stock (seqBlock format node level) := by
  have hblock : Draws stock (block format node level [] []) :=
    draws_block hformat h level (List.forall_mem_nil _) (List.forall_mem_nil _)
  unfold seqBlock
  split
  · next first statement last hchildren =>
      split
      · have hstatement := h.children statement
          (by rw [hchildren]; exact List.mem_cons_of_mem _ List.mem_cons_self)
        exact (hformat statement level none hstatement endsStocked_none).map
          fun text htext => drawn_stripIndent htext level
      · exact hblock
  · exact hblock

theorem draws_generateBlock {node : Node} (h : node.Stocked stock) (level : Int) :
    Draws stock (generateBlock format node level) := by
  unfold generateBlock
  split
  · exact draws_block hformat h level (List.forall_mem_nil _) (List.forall_mem_nil _)
  · exact (draws_items hformat level h.children).map fun text htext => drawn_stripIndent htext level

theorem draws_procedural {node : Node} (h : node.Stocked stock) (level : Int) :
    Draws stock (procedural format node level) := by
  unfold procedural
  refine (yields_require _).bind fun keyword hkeyword => ?_
  refine (yields_require _).bind fun statement hstatement => ?_
  have hfirst := h.children keyword (List.mem_of_head? hkeyword)
  have hlast := h.children statement (List.mem_of_getLast? hstatement)
  exact (draws_timedBody hformat hlast level hfirst.comments).map fun text htext =>
    drawn_append.2 ⟨hfirst.drawn_text, htext⟩

/-! ## Headers with bodies -/

/-- Each condition of a chain draws on its own nodes; the induction is on the length of the
chain. -/
theorem draws_conditional (fuel : Nat) {node : Node} (h : node.Stocked stock) (level : Int)
    {extra : List Comment} (hextra : ∀ c ∈ extra, c.text ⊆ stock) :
    Draws stock (conditional format fuel node level extra) := by
  -- An else-if is rendered with the rest of the fuel and the comments of its else.
  induction fuel generalizing node extra with
  | zero => exact .pure drawn_nil
  | succ fuel ih =>
      unfold conditional
      split
      · next keyword others branches hchildren hbranches =>
          obtain ⟨hhead, hfirst, hsecond⟩ := Branches.subset hbranches
          have hkeyword := h.children keyword (by rw [hchildren]; exact List.mem_cons_self)
          have hcondition : AllStocked stock branches.condition :=
            h.children.subset (Branches.condition_subset hbranches)
          have hlead := List.forall_mem_append.2 ⟨hextra, (h.children.subset hhead).commentsAll⟩
          refine (draws_body hformat (h.children _ hfirst) level hlead).bind
            fun result hresult => ?_
          obtain ⟨text, isBlock⟩ := result
          have htitle := drawn_append.2 ⟨drawn_header hkeyword.drawn_text hcondition, hresult⟩
          dsimp only
          split
          · exact .pure htitle
          · next elseToken branch hsome =>
              obtain ⟨htoken, hbranch⟩ := hsecond _ hsome
              have htoken := h.children _ htoken
              have hbranch := h.children _ hbranch
              have helse := drawn_beforeElse htitle isBlock level
              split
              · exact (ih hbranch.unwrap.1 (List.forall_mem_append.2
                  ⟨htoken.comments, hbranch.unwrap.1.within.leading⟩)).map fun rest hrest =>
                    drawn_append.2 ⟨drawn_append.2 ⟨helse, drawn_space⟩, hrest⟩
              · exact (draws_body hformat hbranch level htoken.comments).map fun rest hrest =>
                  drawn_append.2 ⟨helse, hrest⟩
      · exact draws_woven h

/-- The closing keyword of a choice is no end of the file. -/
theorem draws_caseStatement {node : Node} (h : node.Stocked stock) (level : Int) :
    Draws stock (caseStatement format node level) := by
  unfold caseStatement
  dsimp only
  split
  · next keyword others opening closing hchildren hparens =>
      have hkeyword := h.children keyword (by rw [hchildren]; exact List.mem_cons_self)
      -- Where the last child is no `endcase`, the word that is written is the renderer's own.
      have hclose : ∀ last ∈ node.children.getLast?.filter (fun last : Node =>
          last.isToken && Text.startsWith last.lexeme "endcase"),
            last.Stocked stock ∧ Drawn stock last.lexeme := by
        intro last hlast
        obtain ⟨hlast, hword⟩ := Option.mem_filter_iff.1 hlast
        rw [Bool.and_eq_true] at hword
        have hstocked := h.children last (List.mem_of_getLast? hlast)
        refine ⟨hstocked, hstocked.drawn_lexeme hword.1 fun heq => ?_⟩
        rw [heq] at hword
        exact absurd hword.2 (by decide)
      generalize node.children.getLast?.filter (fun last : Node =>
        last.isToken && Text.startsWith last.lexeme "endcase") = close at hclose ⊢
      have hword : Drawn stock ((close.map lexeme).getD "endcase") := by
        cases close with
        | none => exact drawn_added (by decide)
        | some last => exact (hclose last rfl).2
      refine (draws_endOfLine (h.children.subset (List.take_subset _ _)) level).bind
        fun comments hcomments => ?_
      refine (draws_items hformat _ ?_).bind fun lines hlines => ?_
      · split
        · exact h.children.subset
            (List.Subset.trans (List.dropLast_sublist _).subset (List.drop_subset _ _))
        · exact h.children.subset (List.drop_subset _ _)
      refine (draws_closingLine (fun last hlast => (hclose last hlast).1) hword level
        (List.forall_mem_nil _)).map fun last hlast => ?_
      have hheader := drawn_header hkeyword.drawn_text
        (h.children.subset (between_subset node.children (opening + 1) closing))
      simp only [drawn_append]
      exact ⟨⟨⟨⟨hheader, hcomments⟩, drawn_added (by decide)⟩, hlines⟩, hlast⟩
  · exact draws_woven h

theorem draws_caseItem {node : Node} (h : node.Stocked stock) (level : Int) :
    Draws stock (caseItem format node level) := by
  unfold caseItem
  split
  · exact .pure drawn_nil
  · next statement hlast =>
      have hstatement := h.children statement (List.mem_of_getLast? hlast)
      have hhead := h.children.subset (List.dropLast_sublist _).subset
      have hfront : ∀ colon, AllStocked stock (node.children.take colon) :=
        fun colon => h.children.subset (List.take_subset colon node.children)
      refine (yields_unwritten _).bind fun pending _ => ?_
      split
      · refine (draws_inlineStatement hformat hstatement level).map fun text htext =>
          drawn_append.2 ⟨drawn_append.2 ⟨drawn_labels ?_, drawn_added (by decide)⟩, htext⟩
        split
        · exact hfront _
        · exact hhead
      · refine (draws_body hformat hstatement level hhead.commentsAll).map fun result hresult =>
          drawn_append.2 ⟨drawn_append.2 ⟨drawn_labels ?_, drawn_added (by decide)⟩, hresult⟩
        split
        · exact hfront _
        · exact hhead

theorem draws_loop {node : Node} (h : node.Stocked stock) (level : Int) :
    Draws stock (loop format node level) := by
  unfold loop
  split
  · next first second others hchildren =>
      have hall := h.children
      rw [hchildren] at hall
      have hhead := hall.subset (List.dropLast_sublist _).subset
      have hlast := (List.forall_mem_cons.1 hall).2 _ (List.getLast_mem (List.cons_ne_nil _ _))
      exact (draws_body hformat hlast level hhead.commentsAll).map fun result hresult =>
        drawn_append.2 ⟨drawn_loopHeader hhead, hresult⟩
  · exact draws_woven h

theorem draws_timingControl {node : Node} (h : node.Stocked stock) (level : Int) :
    Draws stock (timingControl format node level) := by
  unfold timingControl
  split
  · next control next others hchildren =>
      have hall := h.children
      rw [hchildren] at hall
      obtain ⟨hcontrol, hrest⟩ := List.forall_mem_cons.1 hall
      have hstatement := hrest _ (List.getLast_mem (List.cons_ne_nil next others))
      dsimp only
      split
      · exact (draws_inlineStatement hformat hstatement level).map fun text htext =>
          drawn_append.2 ⟨drawn_append.2 ⟨hcontrol.drawn_text, drawn_space⟩, htext⟩
      · exact (draws_body hformat hstatement level hcontrol.comments).map fun result hresult =>
          drawn_append.2 ⟨hcontrol.drawn_text, hresult⟩
  · exact draws_woven h

end
end VerilogLayout.Render

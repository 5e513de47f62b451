import Mathlib.Data.List.Infix
import VerilogLayout.Proofs.Comments.Once
import VerilogLayout.Proofs.Plain.Basic
import VerilogLayout.Proofs.Source.Trim

/-!
# Comments and the marks of the end of the file

The end of a written tree loses the marks of the end of the file, also where a comment is a part of
what looks like a mark. `markTree` writes any text in front of a comment and behind it; for a
comment that a mark can reach into this completes a mark, and the comment is cut off with it.
`comments_written_once_iff` is the result: no other comment is ever lost.
-/

namespace VerilogLayout

namespace Node

open Render

/-! ## A tree that completes a mark -/

/-- A token that is named after no rule and written as it stands. -/
def markToken (lexeme : Text) (trailing : List Comment) : Node :=
  { name := "", value := some lexeme, trailing }

/-- A tree that writes `front`, the comment and `back` side by side. -/
def markTree (front : Text) (comment : Comment) (back : Text) : Node :=
  { name := "source_text"
    children := [markToken front [], markToken [] [comment], markToken back []] }

/-- A token has no kind. -/
theorem kind?_markToken (lexeme : Text) (trailing : List Comment) :
    (markToken lexeme trailing).kind? = none := by
  show Kind.ofName? "" = none
  decide

/-- A token is formatted by writing it and the comments behind it. -/
theorem formatWith_markToken (columns : Columns) (format : Formatter) (lexeme : Text)
    (trailing : List Comment) :
    formatWith columns format false (markToken lexeme trailing) 0 none = (do
      let body ← Render.woven (markToken lexeme trailing)
      addTrailing body trailing []) := by
  have hunwrap : (markToken lexeme trailing).unwrap = { inner := markToken lexeme trailing } := rfl
  have hhead : headComments { inner := markToken lexeme trailing } [] = pure [] := rfl
  have htrailing : (markToken lexeme trailing).trailing ++ wrapperTrailing [] = trailing := by
    simp [markToken, wrapperTrailing]
  have hindent : indentFor 0 = [] := rfl
  unfold formatWith
  simp only [hunwrap, is, kind?_markToken, formatBody, Option.bind_none, liftM_woven, hindent,
    Option.any_none, Bool.and_false, Bool.false_eq_true, if_false, hhead, htrailing, pure_bind,
    List.nil_append, Option.orElse_eq_orElse, Option.orElse_none, bind_pure, ite_self,
    List.any_cons, List.any_nil, Bool.or_false, Bool.false_and]

/-- A trimmed text does not end a line. -/
theorem endsLine_eq_false {text : Text} (h : text.IsTrimmed) : endsLine text = false := by
  rw [Bool.eq_false_iff]
  intro hend
  obtain ⟨front, rfl⟩ := List.isSuffixOf_iff_suffix.1 hend
  exact h.last (c := '\n') rfl

/-- A trimmed text is what is left of it behind a space. -/
theorem trimSpaces_cons {text : Text} (h : text.IsTrimmed) :
    Text.trimSpaces (.char ' ' :: text) = text := by
  obtain ⟨hne, -⟩ := id h
  have hfront : List.dropWhile (· == .char ' ') text = text := by
    obtain ⟨c, rest, rfl⟩ := List.exists_cons_of_ne_nil hne
    refine List.dropWhile_cons_of_neg fun hc => h.head (Text.isBlank_of_beq_space hc)
  have hback : Text.dropRightWhile (· == .char ' ') text = text := by
    rcases List.eq_nil_or_concat text with rfl | ⟨front, c, rfl⟩
    · rfl
    · rw [List.concat_eq_append] at h ⊢
      exact List.rdropWhile_concat_neg _ _ _ fun hc => h.last (Text.isBlank_of_beq_space hc)
  show Text.dropRightWhile (· == .char ' ') (List.dropWhile (· == .char ' ') (.char ' ' :: text)) =
    text
  rw [List.dropWhile_cons_of_pos (by rfl), hfront, hback]

/-- An empty token with a block comment behind it is written as that comment. -/
theorem woven_markComment {comment : Comment} (hkind : comment.kind = .block)
    (h : comment.text.IsTrimmed) :
    Render.woven (markToken [] [comment]) {} = (.ok comment.text, ⟨[comment]⟩) := by
  have hbehind : commentsBehind [comment] = .char ' ' :: comment.text := by
    simp [commentsBehind, Comment.isLine, hkind]
  unfold Render.woven spelled markToken spelledAt
  simp only [take_nil, pure_bind, bind_assoc]
  rw [bind_apply]
  show (Except.ok (Text.trimSpaces ([] ++ commentsBehind [comment])), _) = _
  rw [hbehind, List.nil_append, trimSpaces_cons h]

/-- An empty token with a block comment behind it is formatted as that comment. -/
theorem formatWith_markComment (columns : Columns) (format : Formatter) {comment : Comment}
    (hkind : comment.kind = .block) (h : comment.text.IsTrimmed) :
    formatWith columns format false (markToken [] [comment]) 0 none {} =
      (.ok comment.text, ⟨[comment]⟩) := by
  rw [formatWith_markToken, bind_apply, woven_markComment hkind h]
  simp only [addTrailing, endsLine_eq_false h, List.isEmpty_cons, Bool.false_eq_true, if_false]
  have hsee : (⟨[comment]⟩ : Ledger).see comment = (false, ⟨[comment]⟩) := by
    simp [Ledger.see, Ledger.isConsumed]
  have htake : Ledger.take [comment] ⟨[comment]⟩ = ([], ⟨[comment]⟩) := by
    simp only [Ledger.take, hsee]
  have hpending : Render.unwritten [comment] ⟨[comment]⟩ = (.ok [], ⟨[comment]⟩) := by
    show (Except.ok _, _) = _
    simp [Ledger.isConsumed]
  have hinline : Render.inline [comment] [] ⟨[comment]⟩ = (.ok [], ⟨[comment]⟩) := by
    show (Except.ok (Ledger.inlined [] (Ledger.take [comment] ⟨[comment]⟩).1),
      (Ledger.take [comment] ⟨[comment]⟩).2) = _
    rw [htake]
    rfl
  simp only [bind_apply, hpending, hinline]
  simp [pure_apply]

/-- Parts of a mark are written as they are. -/
theorem text_markToken {part : Text} (h : part ∈ Lexeme.endOfFile.inits ++ Lexeme.endOfFile.tails)
    (hne : part ≠ Lexeme.endOfFile) : (markToken part []).text = part := by
  revert part
  decide +kernel

/-- Without modules there are no empty lines between descriptions. -/
theorem sourceText_eq_items (format : Formatter) (level : Int) {nodes : List Node}
    (h : ∀ node ∈ nodes, node.unwrap.inner.kind? ≠ some .moduleDeclaration) (isFirst : Bool) :
    sourceText format level isFirst nodes = items format level nodes := by
  induction nodes generalizing isFirst with
  | nil => rfl
  | cons node rest ih =>
      obtain ⟨hnode, hrest⟩ := List.forall_mem_cons.1 h
      unfold sourceText items
      congr 1
      funext block
      simp only [ih hrest, hnode, false_and, if_false]
      cases block with
      | nil => simp
      | cons c block => rfl

/-- A tree of tokens is formatted as the source text that it is. -/
theorem formatWith_markTree (columns : Columns) (format : Formatter) (front : Text)
    (comment : Comment) (back : Text) :
    formatWith columns format true (markTree front comment back) 0 none = (do
      let body ← sourceText format 0 true (markTree front comment back).children
      pure (if !body.isEmpty && !endsLine body then body ++ "\n" else body)) := by
  have hunwrap : (markTree front comment back).unwrap = { inner := markTree front comment back } :=
    rfl
  have hkind : (markTree front comment back).kind? = some .sourceText := by
    show Kind.ofName? "source_text" = some .sourceText
    decide
  have hrender : renderer? columns format .sourceText =
      some fun node level _ => sourceText format level true node.children := rfl
  have hhead : headComments { inner := markTree front comment back } [] = pure [] := rfl
  have htrailing : (markTree front comment back).trailing ++ wrapperTrailing [] = [] := rfl
  have hindent : indentFor 0 = [] := rfl
  unfold formatWith
  simp only [hunwrap, is, hkind, formatBody, Option.bind_some, hrender, hindent, hhead, htrailing,
    Bool.true_or, Bool.not_true, Bool.false_and, Bool.false_eq_true, if_false, if_true, pure_bind,
    List.nil_append, Option.orElse_eq_orElse, Option.orElse_none, bind_pure, Bool.true_and,
    addTrailing_nil]

/-- A block comment between two tokens is written between them, with blanks at the end at most. -/
theorem formatWhole_markTree (columns : Columns) {front back : Text} {comment : Comment}
    (hfront : (markToken front []).text = front) (hback : (markToken back []).text = back)
    (hkind : comment.kind = .block) (h : comment.text.IsTrimmed) :
    ∃ tail, (∀ c ∈ tail, Text.isBlank c) ∧ formatWhole columns (markTree front comment back) {} =
      (.ok (front ++ comment.text ++ back ++ tail, 0), ⟨[comment]⟩) := by
  have hplain : ∀ {part : Text}, (markToken part []).text = part → ∀ format,
      formatWith columns format false (markToken part []) 0 none = pure part := by
    intro part hpart format
    rw [formatWith_markToken, woven_plain (plain_iff.2 rfl), hpart, pure_bind, addTrailing_nil]
  -- The tokens meet the comment without a gap, so that the text is the three pieces one behind the
  -- other.
  have hsource : sourceText (formatAt columns 2) 0 true (markTree front comment back).children {} =
      (.ok (front ++ comment.text ++ back), ⟨[comment]⟩) := by
    rw [sourceText_eq_items]
    · simp only [markTree, items, formatAt, hplain hfront, hplain hback, pure_bind, bind_apply,
        formatWith_markComment _ _ hkind h, pure_apply]
      simp
    · have hkind? : ∀ lexeme trailing, (markToken lexeme trailing).unwrap.inner.kind? = none :=
        kind?_markToken
      simp [markTree, hkind?]
  have hformat : ∃ tail, (∀ c ∈ tail, Text.isBlank c) ∧
      format columns true (markTree front comment back) 0 none {} =
        (.ok (front ++ comment.text ++ back ++ tail), ⟨[comment]⟩) := by
    have hheight : (markTree front comment back).height = 2 := rfl
    rw [format, hheight, formatWith_markTree, bind_apply, hsource]
    by_cases hend : !(front ++ comment.text ++ back).isEmpty &&
        !endsLine (front ++ comment.text ++ back)
    · refine ⟨"\n", by decide, ?_⟩
      simp only [hend, if_true, pure_apply]
    · refine ⟨[], by simp, ?_⟩
      simp only [hend, Bool.false_eq_true, if_false, pure_apply, List.append_nil]
  obtain ⟨tail, htail, hformat⟩ := hformat
  refine ⟨tail, htail, ?_⟩
  unfold formatWhole
  rw [bind_apply, hformat]
  have hleft : (⟨[comment]⟩ : Ledger).unwritten (markTree front comment back).comments = [] := by
    simp [markTree, markToken, comments, commentsAll, Ledger.unwritten, Ledger.take, Ledger.see,
      Ledger.isConsumed]
  show (if ((⟨[comment]⟩ : Ledger).unwritten (markTree front comment back).comments).isEmpty then
      pure (_, 0) else _ : Render (Text × Nat)) ⟨[comment]⟩ = _
  rw [hleft]
  rfl

/-- Cutting marks off leaves the start of a text. -/
theorem dropEndMarks_isPrefix (fuel : Nat) (text : Text) : dropEndMarks fuel text <+: text := by
  induction fuel generalizing text with
  | zero => exact List.prefix_rfl
  | succ fuel ih =>
      unfold dropEndMarks
      split
      · exact (ih _).trans ((Text.dropRightWhile_isPrefix _ _).trans (List.take_prefix _ _))
      · exact List.prefix_rfl

/-- A text that ends with a mark is cut in front of the mark at least. -/
theorem cleanEnd_marked (front : Text) {tail : Text} (htail : ∀ c ∈ tail, Text.isBlank c) :
    ∃ rest, rest <+: front ∧
      cleanEnd (front ++ Lexeme.endOfFile ++ tail) ∈ [rest, rest ++ "\n"] := by
  have htrim : Text.trimRight (front ++ Lexeme.endOfFile ++ tail) = front ++ Lexeme.endOfFile := by
    have hends : Text.Ends Text.isBlank Lexeme.endOfFile := ⟨.char '>', rfl, rfl⟩
    exact Text.trimRight_append htail (hends.append front).stops
  have hmark : Text.endsWith (front ++ Lexeme.endOfFile) Lexeme.endOfFile :=
    List.isSuffixOf_iff_suffix.2 (List.suffix_append _ _)
  obtain ⟨fuel, hfuel⟩ : ∃ fuel, (front ++ Lexeme.endOfFile).length = fuel + 1 :=
    ⟨front.length + 4, List.length_append⟩
  refine ⟨dropEndMarks (fuel + 1) (front ++ Lexeme.endOfFile), ?_, ?_⟩
  · rw [dropEndMarks, if_pos hmark, List.length_append, Nat.add_sub_cancel, List.take_left]
    exact (dropEndMarks_isPrefix _ _).trans (Text.dropRightWhile_isPrefix _ _)
  · unfold cleanEnd
    rw [htrim]
    dsimp only
    rw [hfuel]
    split
    · next hempty => simp [List.isEmpty_iff.1 hempty]
    · simp

/-- A comment that reaches into a mark is lost. -/
theorem not_preserved_markTree (columns : Columns) {front back before : Text} {comment : Comment}
    (hfront : (markToken front []).text = front) (hback : (markToken back []).text = back)
    (hkind : comment.kind = .block) (h : comment.text.IsTrimmed)
    (hmark : front ++ comment.text ++ back = before ++ Lexeme.endOfFile)
    (hlength : before.length < comment.text.length) :
    ∃ text, formatTree columns (markTree front comment back) = .ok text ∧
      ¬ Preserved columns (markTree front comment back) text := by
  obtain ⟨tail, htail, hrun⟩ := formatWhole_markTree columns hfront hback hkind h
  have hledger : finalLedger columns (markTree front comment back) = ⟨[comment]⟩ :=
    congrArg Prod.snd hrun
  refine ⟨cleanEnd (front ++ comment.text ++ back ++ tail), ?_, fun hcarried => ?_⟩
  · have hok : ((formatWhole columns (markTree front comment back)).run {}).1 = .ok _ :=
      congrArg Prod.fst hrun
    rw [formatTree, formatTreeCounted, hok]
    rfl
  · rw [Preserved, hledger, hmark] at hcarried
    obtain ⟨rest, hrest, hclean⟩ := cleanEnd_marked before htail
    have hinfix : comment.text <:+: rest := by
      suffices hrest : Carries [comment] rest from hrest.infix_of_mem (by simp)
      rcases List.mem_pair.1 hclean with heq | heq
      · rwa [heq] at hcarried
      · rw [heq] at hcarried
        refine hcarried.of_append_blanks (by decide) ?_
        simpa using h
    have hle := hinfix.length_le
    have hle' := hrest.length_le
    omega

/-- A comment that is not clear of the mark is lost in some tree. -/
theorem exists_not_preserved (columns : Columns) {text : Text} (h : text.IsTrimmed)
    (hclear : ¬ Text.ClearOf Lexeme.endOfFile text) :
    ∃ root result, (∀ c ∈ root.comments, c.text = text) ∧
      formatTree columns root = .ok result ∧ ¬ Preserved columns root result := by
  have hcomments : ∀ front back, ∀ c ∈ (markTree front ⟨text, .block, 0⟩ back).comments,
      c.text = text := by
    simp [markTree, markToken, comments, commentsAll]
  rw [Text.ClearOf, Classical.not_and_iff_not_or_not] at hclear
  -- Either the mark runs over the end of the comment, and a token behind brings the rest, or it
  -- holds the whole comment, and there is a token on either side.
  rcases hclear with hreach | hinside
  · push Not at hreach
    obtain ⟨part, hne, ⟨back, hback⟩, ⟨before, hbefore⟩⟩ := hreach
    have hlong : 0 < part.length := List.length_pos_of_ne_nil hne
    have htext : (markToken back []).text = back := by
      refine text_markToken (List.mem_append_right _ ((List.mem_tails _ _).2 ⟨part, hback⟩)) ?_
      rintro rfl
      have hlength := congrArg List.length hback
      rw [List.length_append] at hlength
      omega
    let comment : Comment := ⟨text, .block, 0⟩
    have hmark : [] ++ comment.text ++ back = before ++ Lexeme.endOfFile := by
      show [] ++ text ++ back = _
      rw [← hbefore, ← hback, List.nil_append, List.append_assoc]
    have hlength : before.length < text.length := by
      rw [← hbefore, List.length_append]
      omega
    obtain ⟨result, hresult⟩ := not_preserved_markTree columns rfl htext rfl h hmark hlength
    exact ⟨_, result, hcomments [] back, hresult⟩
  · obtain ⟨front, back, hmark⟩ := not_not.1 hinside
    have hlong : 0 < text.length := List.length_pos_of_ne_nil h.1
    have hlength := congrArg List.length hmark
    simp only [List.length_append] at hlength
    have hfront : (markToken front []).text = front := by
      refine text_markToken (List.mem_append_left _ ((List.mem_inits _ _).2 ⟨text ++ back, ?_⟩)) ?_
      · rw [← hmark, List.append_assoc]
      · rintro rfl
        omega
    have hback : (markToken back []).text = back := by
      refine text_markToken (List.mem_append_right _ ((List.mem_tails _ _).2 ⟨_, hmark⟩)) ?_
      rintro rfl
      omega
    let comment : Comment := ⟨text, .block, 0⟩
    have hmark' : front ++ comment.text ++ back = [] ++ Lexeme.endOfFile := hmark
    obtain ⟨result, hresult⟩ :=
      not_preserved_markTree columns hfront hback rfl h hmark' hlong
    exact ⟨_, result, hcomments front back, hresult⟩

end Node

open Node

/-- For comments without blanks at their ends: every tree with such comments is written with each of
them once, and they stand in the text exactly if no mark of the end of the file can reach into one
of them. -/
theorem comments_written_once_iff (columns : Columns) (P : Text → Prop)
    (hP : ∀ text, P text → text.IsTrimmed) :
    (∀ root text, (∀ c ∈ root.comments, P c.text) → formatTree columns root = .ok text →
      Accounted columns root) ∧
    ((∀ root text, (∀ c ∈ root.comments, P c.text) → formatTree columns root = .ok text →
      Preserved columns root text) ↔ ∀ text, P text → Text.ClearOf Lexeme.endOfFile text) := by
  refine ⟨fun root text hcomments => accounted_of_formatTree fun c hc => hP _ (hcomments c hc), ?_⟩
  constructor
  · intro hall text htext
    by_contra hclear
    obtain ⟨root, result, hcomments, hresult, hlost⟩ :=
      exists_not_preserved columns (hP text htext) hclear
    exact hlost (hall root result (fun c hc => by rwa [hcomments c hc]) hresult)
  · intro hclear root text hcomments
    exact preserved_of_clearOf (fun c hc => hP _ (hcomments c hc))
      fun c hc => hclear _ (hcomments c hc)

/-- A name with a usual comment behind it. -/
def notedName : Node where
  name := "source_text"
  children := [
    { name := "IDENTIFIER", value := some ("x" : Text), trailing := [⟨("// a" : Text), .line, 1⟩] }]

/-- A usual comment is not lost. -/
theorem note_written_once :
    Accounted Columns.standard notedName ∧
      Preserved Columns.standard notedName ("x // a\n" : Text) := by
  have htrimmed : ∀ text : Text, text = "// a" → text.IsTrimmed := by
    rintro text rfl
    exact ⟨by decide, by decide⟩
  obtain ⟨haccounted, hpreserved⟩ :=
    comments_written_once_iff Columns.standard (· = "// a") htrimmed
  have hclear : ∀ text : Text, text = "// a" → Text.ClearOf Lexeme.endOfFile text := by
    rintro text rfl
    refine ⟨fun part hne hpart hsuffix => ?_, by decide⟩
    have hnone : ∀ part ∈ Lexeme.endOfFile.inits, part ≠ [] → ¬ part <:+ ("// a" : Text) := by
      decide
    exact hnone part ((List.mem_inits _ _).2 hpart) hne hsuffix
  have hcomments : ∀ c ∈ notedName.comments, c.text = ("// a" : Text) := by decide
  have hformat : formatTree Columns.standard notedName = .ok ("x // a\n" : Text) := by
    decide +kernel
  exact ⟨haccounted notedName _ hcomments hformat,
    hpreserved.2 hclear notedName _ hcomments hformat⟩

end VerilogLayout

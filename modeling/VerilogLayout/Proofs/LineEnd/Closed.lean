import VerilogLayout.Proofs.Comments.Phrase
import VerilogLayout.Proofs.Source.Search

/-!
# Line comments that end their lines

A text is closed if it carries comments and a line feed stands behind each line comment among them,
so that nothing is swallowed. Closed texts can be put side by side, and a text that ends in a line
comment is closed by a line feed. What may be cut off at the ends follows from `Closed.cut`: a
comment that is cut into is a line comment, of which two slashes are left on the last line.
-/

namespace VerilogLayout

/-- A comment between its delimiters. A line comment stays on its line. -/
structure Comment.IsDelimited (comment : Comment) : Prop where
  line : comment.isLine → Text.startsWith comment.text "//" ∧ .char '\n' ∉ comment.text
  block : ¬ comment.isLine →
    Text.startsWith comment.text "/*" ∧ Text.endsWith comment.text "*/"

instance (comment : Comment) : Decidable comment.IsDelimited :=
  decidable_of_iff ((_ → _) ∧ (_ → _)) ⟨fun h => ⟨h.1, h.2⟩, fun h => ⟨h.line, h.block⟩⟩

/-- The comments stand in the text one behind the other, and a line feed stands behind each line
comment. -/
inductive Closed : List Comment → Text → Prop where
  | nil : Closed [] []
  | code (c : CodePoint) {comments text} : Closed comments text → Closed comments (c :: text)
  | comment (comment : Comment) {comments text} :
      (comment.isLine → text.head? = some (.char '\n')) → Closed comments text →
      Closed (comment :: comments) (comment.text ++ text)

/-- The comments stand in the text, but the last one is a line comment that goes on behind the end
of the text. -/
inductive CutsInto : List Comment → Text → Prop where
  | part {comment : Comment} {part : Text} :
      comment.isLine → part <+: comment.text → Text.startsWith part "//" → CutsInto [comment] part
  | code (c : CodePoint) {comments text} : CutsInto comments text → CutsInto comments (c :: text)
  | comment (comment : Comment) {comments text} :
      (comment.isLine → text.head? = some (.char '\n')) → CutsInto comments text →
      CutsInto (comment :: comments) (comment.text ++ text)

namespace Comment.IsDelimited

variable {comment : Comment}

/-- A comment starts with a slash. -/
theorem exists_cons (h : comment.IsDelimited) : ∃ rest, comment.text = .char '/' :: rest := by
  by_cases hline : comment.isLine
  · obtain ⟨rest, hrest⟩ := List.isPrefixOf_iff_prefix.1 (h.line hline).1
    exact ⟨.char '/' :: rest, hrest.symm⟩
  · obtain ⟨rest, hrest⟩ := List.isPrefixOf_iff_prefix.1 (h.block hline).1
    exact ⟨.char '*' :: rest, hrest.symm⟩

/-- A block comment ends with a slash. -/
theorem getLast?_block (h : comment.IsDelimited) (hline : ¬ comment.isLine) :
    comment.text.getLast? = some (.char '/') := by
  obtain ⟨front, hfront⟩ := List.isSuffixOf_iff_suffix.1 (h.block hline).2
  have hsplit : front ++ ("*/" : Text) = front ++ [.char '*'] ++ [.char '/'] :=
    (List.append_assoc front [.char '*'] [.char '/']).symm
  rw [← hfront, hsplit, List.getLast?_concat]

end Comment.IsDelimited

namespace CutsInto

variable {comments : List Comment} {text : Text}

theorem ne_nil (h : CutsInto comments text) : text ≠ [] := by
  induction h with
  | part _ _ hstart =>
      rintro rfl
      cases hstart
  | code c _ _ => exact List.cons_ne_nil c _
  | comment _ _ _ ih => exact fun hnil => ih (List.append_eq_nil_iff.1 hnil).2

/-- The comment that a text cuts into is the last one, and a line comment. -/
theorem getLast?_isLine (h : CutsInto comments text) :
    ∃ last, comments.getLast? = some last ∧ last.isLine := by
  induction h with
  | part hline => exact ⟨_, rfl, hline⟩
  | code _ _ ih => exact ih
  | comment first _ _ ih =>
      obtain ⟨last, hlast, hline⟩ := ih
      exact ⟨last, by rw [List.getLast?_cons, hlast, Option.getD_some], hline⟩

/-- What is left of the line comment stands on the last line. -/
theorem exists_suffix (hdelimited : ∀ comment ∈ comments, comment.IsDelimited)
    (h : CutsInto comments text) :
    ∃ part, part <:+ text ∧ Text.startsWith part "//" ∧ .char '\n' ∉ part := by
  induction h with
  | @part comment part hline hpart hstart =>
      have hbreak := ((hdelimited comment List.mem_cons_self).line hline).2
      exact ⟨part, List.suffix_refl _, hstart, fun hmem => hbreak (hpart.subset hmem)⟩
  | code c _ ih =>
      obtain ⟨part, hpart, hmore⟩ := ih hdelimited
      exact ⟨part, hpart.trans (List.suffix_cons c _), hmore⟩
  | comment _ _ _ ih =>
      obtain ⟨part, hpart, hmore⟩ := ih (List.forall_mem_cons.1 hdelimited).2
      exact ⟨part, hpart.trans (List.suffix_append _ _), hmore⟩

end CutsInto

namespace Closed

variable {comments others : List Comment} {text other front back : Text}

/-- Code alone is closed. -/
theorem none (text : Text) : Closed [] text := by
  induction text with
  | nil => exact .nil
  | cons c text ih => exact .code c ih

theorem append (h : Closed comments text) (hother : Closed others other) :
    Closed (comments ++ others) (text ++ other) := by
  induction h with
  | nil => exact hother
  | code c _ ih => exact .code c ih
  | @comment comment comments text hline _ ih =>
      rw [List.cons_append, List.append_assoc]
      refine .comment comment (fun hisLine => ?_) ih
      rw [List.head?_append, hline hisLine, Option.some_or]

/-- Code in front of a text. -/
theorem after (front : Text) (h : Closed comments text) : Closed comments (front ++ text) :=
  (Closed.none front).append h

/-- Code behind a text. -/
theorem before (h : Closed comments text) (back : Text) : Closed comments (text ++ back) := by
  simpa using h.append (Closed.none back)

/-- A comment with a line feed behind it. -/
theorem single (comment : Comment) : Closed [comment] (comment.text ++ "\n") :=
  .comment comment (fun _ => rfl) (.none _)

/-- A block comment needs no line feed. -/
theorem block {comment : Comment} (h : ¬ comment.isLine) : Closed [comment] comment.text := by
  simpa using Closed.comment comment (fun hline => absurd hline h) .nil

/-- A closed text carries its comments. -/
theorem carries (h : Closed comments text) : Carries comments text := by
  induction h with
  | nil => exact .nil
  | code c _ ih => exact .code c ih
  | comment comment _ _ ih => exact .comment comment ih

/-- A line that is ended, and what stands below it. -/
theorem above (h : Closed comments (text ++ "\n")) (hother : Closed others other) :
    Closed (comments ++ others) (text ++ ("\n" ++ other)) := by
  rw [← List.append_assoc]
  exact h.append hother

variable (hdelimited : ∀ comment ∈ comments, comment.IsDelimited)
include hdelimited

/-- Without a slash there is no comment. -/
theorem eq_nil (h : Closed comments text) (hslash : .char '/' ∉ text) : comments = [] := by
  refine List.eq_nil_iff_forall_not_mem.2 fun comment hmem => hslash ?_
  obtain ⟨rest, hrest⟩ := (hdelimited comment hmem).exists_cons
  exact (h.carries.infix_of_mem hmem).subset (by rw [hrest]; exact List.mem_cons_self)

/-- What has no slash can be cut off in front. -/
theorem of_append (h : Closed comments (front ++ text)) (hslash : .char '/' ∉ front) :
    Closed comments text := by
  induction front with
  | nil => exact h
  | cons c front ih =>
      rw [List.mem_cons, not_or] at hslash
      refine ih ?_ hslash.2
      rw [List.cons_append] at h
      generalize hall : c :: (front ++ text) = all at h
      cases h with
      | nil => cases hall
      | code d h =>
          obtain ⟨-, rfl⟩ := List.cons.inj hall
          exact h
      | comment first hline h =>
          obtain ⟨rest, hrest⟩ := (hdelimited first List.mem_cons_self).exists_cons
          rw [hrest] at hall
          exact absurd (List.cons.inj hall).1.symm hslash.1

omit hdelimited in
/-- Two slashes in front do not reach into a part without slashes. -/
theorem startsWith_of_append (h : Text.startsWith (front ++ back) "//")
    (hslash : .char '/' ∉ back) :
    Text.startsWith front "//" := by
  obtain ⟨rest, hfound⟩ := List.isPrefixOf_iff_prefix.1 h
  have hrest : .char '/' :: .char '/' :: rest = front ++ back := hfound
  have hnone : ∀ more, back ≠ .char '/' :: more := by
    rintro more rfl
    exact hslash List.mem_cons_self
  rcases front with _ | ⟨c, _ | ⟨d, front⟩⟩
  · exact absurd hrest.symm (hnone _)
  · exact absurd (List.cons.inj hrest).2.symm (hnone _)
  · obtain ⟨hfirst, hmore⟩ := List.cons.inj hrest
    obtain ⟨hsecond, -⟩ := List.cons.inj hmore
    rw [← hfirst, ← hsecond]
    exact List.isPrefixOf_iff_prefix.2 ⟨front, rfl⟩

/-- Where a part without slashes is cut off at the end, the text stays closed, or the last comment
is a line comment that is cut into. -/
theorem cut (h : Closed comments (front ++ back)) (hslash : .char '/' ∉ back) :
    Closed comments front ∨ .char '\n' ∈ back ∧ CutsInto comments front := by
  generalize hall : front ++ back = all at h
  induction h generalizing front with
  | nil =>
      obtain ⟨rfl, -⟩ := List.append_eq_nil_iff.1 hall
      exact .inl .nil
  | @code c comments text h ih =>
      cases front with
      | nil =>
          obtain rfl := (Closed.code c h).eq_nil hdelimited (by rwa [← hall])
          exact .inl .nil
      | cons d front =>
          obtain ⟨rfl, hrest⟩ := List.cons.inj hall
          rcases ih hdelimited hrest with hclosed | ⟨hbreak, hcut⟩
          · exact .inl (.code d hclosed)
          · exact .inr ⟨hbreak, hcut.code d⟩
  | @comment first comments text hline h ih =>
      obtain ⟨hfirst, hothers⟩ := List.forall_mem_cons.1 hdelimited
      rcases List.append_eq_append_iff.1 hall.symm with ⟨part, rfl, rfl⟩ | ⟨part, hpart, hback⟩
      · rcases ih hothers rfl with hclosed | ⟨hbreak, hcut⟩
        · cases part with
          | cons d part => exact .inl (.comment first hline hclosed)
          | nil =>
              obtain rfl := hclosed.eq_nil hothers List.not_mem_nil
              rw [List.append_nil]
              by_cases hisLine : first.isLine
              · exact .inr ⟨List.mem_of_mem_head? (hline hisLine),
                  .part hisLine (List.prefix_refl _) (hfirst.line hisLine).1⟩
              · exact .inl (.block hisLine)
        · refine .inr ⟨hbreak, .comment first (fun hisLine => ?_) hcut⟩
          obtain ⟨c, rest, rfl⟩ := List.exists_cons_of_ne_nil hcut.ne_nil
          exact hline hisLine
      -- The cut goes through the comment, behind its first two characters.
      · subst hback
        rw [List.mem_append, not_or] at hslash
        obtain ⟨hnone, hslash⟩ := hslash
        obtain rfl := h.eq_nil hothers hslash
        by_cases hisLine : first.isLine
        · have hstart := (hfirst.line hisLine).1
          rw [hpart] at hstart
          refine .inr ⟨List.mem_append_right _ (List.mem_of_mem_head? (hline hisLine)),
            .part hisLine ⟨part, hpart.symm⟩ (startsWith_of_append hstart hnone)⟩
        · have hlast := hfirst.getLast?_block hisLine
          cases hend : part.getLast? with
          | none =>
              rw [List.getLast?_eq_none_iff.1 hend, List.append_nil] at hpart
              exact .inl (hpart ▸ .block hisLine)
          | some c =>
              rw [hpart, Render.getLast?_append_eq hend] at hlast
              exact absurd (List.mem_of_getLast? (hend.trans hlast)) hnone

/-- A part on the last line that holds neither a slash nor a line feed can be cut off. -/
theorem of_append_inline (h : Closed comments (front ++ back)) (hslash : .char '/' ∉ back)
    (hbreak : .char '\n' ∉ back) : Closed comments front :=
  (h.cut hdelimited hslash).resolve_right fun hcut => hbreak hcut.1

/-- A part without slashes can be cut off if the last comment is no line comment. -/
theorem of_append_unlined (h : Closed comments (front ++ back)) (hslash : .char '/' ∉ back)
    (hline : ∀ last ∈ comments.getLast?, ¬ last.isLine) : Closed comments front := by
  refine (h.cut hdelimited hslash).resolve_right ?_
  rintro ⟨-, hcut⟩
  obtain ⟨last, hlast, hisLine⟩ := hcut.getLast?_isLine
  exact hline last hlast hisLine

/-- What stands behind a line feed can be cut off, unless a slash is in it. -/
theorem of_append_break (h : Closed comments (front ++ .char '\n' :: back))
    (hslash : .char '/' ∉ back) :
    Closed comments (front ++ "\n") := by
  have hsplit : front ++ .char '\n' :: back = front ++ [.char '\n'] ++ back := by
    rw [List.append_assoc]
    rfl
  rw [hsplit] at h
  refine (h.cut hdelimited hslash).resolve_right ?_
  rintro ⟨-, hcut⟩
  obtain ⟨part, hpart, hstart, hbreak⟩ := hcut.exists_suffix hdelimited
  cases hlast : part.getLast? with
  | none =>
      rw [List.getLast?_eq_none_iff.1 hlast] at hstart
      cases hstart
  | some c =>
      obtain ⟨before, hbefore⟩ := hpart
      have hend := congrArg List.getLast? hbefore
      rw [Render.getLast?_append_eq hlast, List.getLast?_concat] at hend
      exact hbreak (Option.some.inj hend ▸ List.mem_of_getLast? hlast)

/-- A line feed can be cut off if no line comment is on the line that it ends. -/
theorem of_append_lineFeed (h : Closed comments (front ++ "\n"))
    (hline : Text.includes (Text.afterLast '\n' front) "//" = false) : Closed comments front := by
  refine (h.cut hdelimited (by decide)).resolve_right ?_
  rintro ⟨-, hcut⟩
  obtain ⟨part, hpart, hstart, hbreak⟩ := hcut.exists_suffix hdelimited
  obtain ⟨more, hmore⟩ := List.isPrefixOf_iff_prefix.1 hstart
  have hsuffix : part <:+ Text.afterLast '\n' front := by
    obtain ⟨before, rfl⟩ := hpart
    rw [Text.afterLast, List.reverse_append, List.takeWhile_append_of_pos, List.reverse_append,
      List.reverse_reverse]
    · exact List.suffix_append _ _
    · intro c hc
      exact decide_eq_true fun heq => hbreak (heq ▸ List.mem_reverse.1 hc)
  have hincludes : Text.includes (Text.afterLast '\n' front) "//" :=
    Text.includes_iff.2 (List.IsInfix.trans ⟨[], more, hmore⟩ hsuffix.isInfix)
  exact Bool.eq_false_iff.1 hline hincludes

/-- The spaces at the ends of a text belong to no comment. -/
theorem trimSpaces (h : Closed comments text) : Closed comments (Text.trimSpaces text) := by
  have hspace : ∀ {s : Text}, (∀ c ∈ s, c == ' ') → ∀ d : CodePoint, d ≠ ' ' → d ∉ s :=
    fun hs d hd hmem => hd (eq_of_beq (hs d hmem))
  have hfront : Closed comments (text.dropWhile (· == .char ' ')) := by
    rw [← List.takeWhile_append_dropWhile (p := (· == .char ' ')) (l := text)] at h
    have hspaces : ∀ c ∈ text.takeWhile (· == .char ' '), c == ' ' :=
      fun c hc => (List.mem_takeWhile_imp hc : _)
    exact h.of_append hdelimited (hspace hspaces _ (by decide))
  obtain ⟨tail, htail, hall⟩ :=
    Text.exists_dropRightWhile_append (· == .char ' ') (text.dropWhile (· == .char ' '))
  rw [← htail] at hfront
  exact hfront.of_append_inline hdelimited (hspace hall _ (by decide)) (hspace hall _ (by decide))

/-- The indentation of a text belongs to no comment. -/
theorem stripIndent (h : Closed comments text) (level : Int) :
    Closed comments (VerilogLayout.stripIndent text level) := by
  unfold VerilogLayout.stripIndent
  dsimp only
  split
  · next hstart =>
      obtain ⟨rest, rfl⟩ := List.isPrefixOf_iff_prefix.1 hstart
      rw [List.drop_left]
      exact h.of_append hdelimited fun hmem => absurd (List.eq_of_mem_replicate hmem) (by decide)
  · exact h

/-- Line feeds at the end of a text can be cut off if one is put back. -/
theorem dropLineFeeds (h : Closed comments text) :
    Closed comments (Text.dropRightWhile (· = .char '\n') text ++ "\n") := by
  obtain ⟨tail, htail, hall⟩ := Text.exists_dropRightWhile_append (· = .char '\n') text
  cases tail with
  | nil =>
      rw [List.append_nil] at htail
      rw [htail]
      exact h.before _
  | cons c tail =>
      obtain ⟨hc, hrest⟩ := List.forall_mem_cons.1 hall
      rw [← htail, of_decide_eq_true hc] at h
      exact h.of_append_break hdelimited fun hmem =>
        absurd (of_decide_eq_true (hrest _ hmem)) (by decide)

end Closed
end VerilogLayout

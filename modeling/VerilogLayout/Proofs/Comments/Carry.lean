import Mathlib.Data.List.DropRight
import Mathlib.Data.List.TakeWhile
import VerilogLayout.Spacing.Join
import VerilogLayout.Tree.Node

/-!
# Texts that carry comments

A text carries comments if it can be cut into single characters of code and whole comments, which
are those comments in that order. They then stand in the text at places that do not overlap.
Read `Carries.of_append` first: the end of a text can be cut off if no comment reaches into it.
-/

namespace VerilogLayout

/-- `Carries comments text` says that the comments stand in the text one behind the other, with
any characters around them. -/
inductive Carries : List Comment → Text → Prop where
  | nil : Carries [] []
  | code (c : CodePoint) {comments text} : Carries comments text → Carries comments (c :: text)
  | comment (comment : Comment) {comments text} :
      Carries comments text → Carries (comment :: comments) (comment.text ++ text)

namespace Text

/-- A text that is not empty and has no blanks at its ends. -/
def IsTrimmed (text : Text) : Prop :=
  text ≠ [] ∧ trim text = text

/-- A text that cannot reach into `back` when `back` stands behind it or around it. -/
def ClearOf (back text : Text) : Prop :=
  (∀ part, part ≠ [] → part <+: back → ¬ part <:+ text) ∧ ¬ text <:+: back

theorem trim_eq (text : Text) : trim text = trimRight (trimLeft text) :=
  rfl

/-- Dropping from the right is the library's function of that name. -/
theorem dropRightWhile_eq_rdropWhile (p : CodePoint → Bool) (text : Text) :
    dropRightWhile p text = text.rdropWhile p :=
  rfl

/-- A text is cut at its end only. -/
theorem dropRightWhile_isPrefix (p : CodePoint → Bool) (text : Text) :
    dropRightWhile p text <+: text := by
  rw [dropRightWhile_eq_rdropWhile]
  exact List.rdropWhile_prefix p text

/-- The characters behind the cut are all in the class. -/
theorem exists_dropRightWhile_append (p : CodePoint → Bool) (text : Text) :
    ∃ tail, dropRightWhile p text ++ tail = text ∧ ∀ c ∈ tail, p c := by
  rw [dropRightWhile_eq_rdropWhile]
  exact ⟨text.rtakeWhile p, List.rdropWhile_append_rtakeWhile, fun _ => List.mem_rtakeWhile_imp⟩

/-- A space is a blank. -/
theorem isBlank_of_beq_space {c : CodePoint} (h : c == ' ') : isBlank c := by
  rw [eq_of_beq h]
  rfl

/-- A trimmed text starts with no blank. -/
theorem IsTrimmed.head {c : CodePoint} {rest : Text} (h : IsTrimmed (c :: rest)) : ¬ isBlank c := by
  intro hc
  have hlen : (trim (c :: rest)).length ≤ rest.length := by
    rw [trim_eq, trimLeft, List.dropWhile_cons_of_pos hc]
    exact Nat.le_trans (dropRightWhile_isPrefix _ _).length_le (List.dropWhile_sublist _).length_le
  rw [h.2, List.length_cons] at hlen
  omega

/-- A trimmed text ends with no blank. -/
theorem IsTrimmed.last {front : Text} {c : CodePoint} (h : IsTrimmed (front ++ [c])) :
    ¬ isBlank c := by
  intro hc
  have hleft : trimLeft (front ++ [c]) = front ++ [c] := by
    cases hfront : front ++ [c] with
    | nil => rfl
    | cons d rest =>
        rw [hfront] at h
        exact List.dropWhile_cons_of_neg h.head
  have hlen : (trim (front ++ [c])).length ≤ front.length := by
    rw [trim_eq, hleft, trimRight, dropRightWhile, List.reverse_append, List.reverse_singleton,
      List.singleton_append, List.dropWhile_cons_of_pos hc, List.length_reverse]
    exact Nat.le_trans (List.dropWhile_sublist _).length_le (by simp)
  rw [h.2, List.length_append, List.length_singleton] at hlen
  omega

/-- A trimmed text does not reach into a blank. -/
theorem IsTrimmed.clearOf_blank {text : Text} (h : IsTrimmed text) {c : CodePoint}
    (hc : isBlank c) :
    ClearOf [c] text := by
  refine ⟨?_, ?_⟩
  · intro part hne hpart hsuffix
    obtain ⟨x, rest, rfl⟩ := List.exists_cons_of_ne_nil hne
    obtain ⟨rfl, hrest⟩ := List.cons_prefix_cons.1 hpart
    obtain rfl := List.prefix_nil.1 hrest
    obtain ⟨front, rfl⟩ := hsuffix
    exact h.last hc
  · rintro ⟨front, back, heq⟩
    obtain ⟨x, rest, rfl⟩ := List.exists_cons_of_ne_nil h.1
    have hmem : x ∈ [c] := by rw [← heq]; simp
    obtain rfl := List.mem_singleton.1 hmem
    exact h.head hc

end Text

namespace Carries

variable {comments others : List Comment} {text other : Text}

/-- Any text carries no comment. -/
theorem none (text : Text) : Carries [] text := by
  induction text with
  | nil => exact .nil
  | cons c text ih => exact .code c ih

theorem append (h : Carries comments text) (hother : Carries others other) :
    Carries (comments ++ others) (text ++ other) := by
  induction h with
  | nil => exact hother
  | code c _ ih => exact .code c ih
  | comment comment _ ih =>
      rw [List.cons_append, List.append_assoc]
      exact .comment comment ih

/-- Code in front of a text. -/
theorem after (front : Text) (h : Carries comments text) : Carries comments (front ++ text) :=
  (Carries.none front).append h

/-- Code behind a text. -/
theorem before (h : Carries comments text) (back : Text) : Carries comments (text ++ back) := by
  simpa using h.append (Carries.none back)

/-- Each comment stands in the text. -/
theorem infix_of_mem (h : Carries comments text) {comment : Comment}
    (hmem : comment ∈ comments) : comment.text <:+: text := by
  induction h with
  | nil => simp at hmem
  | code c _ ih => exact (ih hmem).trans (List.suffix_cons c _).isInfix
  | comment first _ ih =>
      rcases List.mem_cons.1 hmem with rfl | hmem
      · exact (List.prefix_append _ _).isInfix
      · exact (ih hmem).trans (List.suffix_append _ _).isInfix

/-- An empty text carries no comment that has a text. -/
theorem eq_nil (h : Carries comments [])
    (htrimmed : ∀ comment ∈ comments, Text.IsTrimmed comment.text) : comments = [] := by
  refine List.eq_nil_iff_forall_not_mem.2 fun comment hmem => ?_
  exact (htrimmed comment hmem).1 (List.infix_nil.1 (h.infix_of_mem hmem))

/-- The end of a text can be cut off if no comment reaches into it. -/
theorem of_append {front back : Text} (h : Carries comments (front ++ back))
    (hclear : ∀ comment ∈ comments, Text.ClearOf back comment.text) : Carries comments front := by
  generalize htext : front ++ back = text at h
  induction h generalizing front with
  | nil =>
      obtain ⟨rfl, -⟩ := List.append_eq_nil_iff.1 htext
      exact .nil
  | @code c comments text h ih =>
      cases front with
      | cons d front =>
          obtain ⟨rfl, hrest⟩ := List.cons_eq_cons.1 htext
          exact .code d (ih hclear hrest)
      | nil =>
          -- A comment that is left would stand in what is cut off.
          have hnone : comments = [] := by
            refine List.eq_nil_iff_forall_not_mem.2 fun comment hmem => ?_
            refine (hclear comment hmem).2 ((h.infix_of_mem hmem).trans ?_)
            rw [show back = c :: text from htext]
            exact (List.suffix_cons c text).isInfix
          subst hnone
          exact .nil
  | @comment first comments text h ih =>
      have hrest : ∀ comment ∈ comments, Text.ClearOf back comment.text :=
        fun comment hmem => hclear comment (List.mem_cons_of_mem _ hmem)
      rcases List.append_eq_append_iff.1 htext with ⟨part, hfirst, hback⟩ | ⟨part, rfl, hpart⟩
      · by_cases hne : part = []
        · subst hne
          rw [List.append_nil] at hfirst
          have hnil : Carries comments [] := ih hrest (by simpa using hback)
          rw [← hfirst, ← List.append_nil first.text]
          exact .comment first hnil
        · exact absurd ⟨front, hfirst.symm⟩
            ((hclear first List.mem_cons_self).1 part hne ⟨text, hback.symm⟩)
      · exact .comment first (ih hrest hpart.symm)

/-- A blank in front of a text belongs to no trimmed comment. -/
theorem of_cons {c : CodePoint} (h : Carries comments (c :: text)) (hc : Text.isBlank c)
    (htrimmed : ∀ comment ∈ comments, Text.IsTrimmed comment.text) : Carries comments text := by
  generalize hall : c :: text = all at h
  cases h with
  | nil => simp at hall
  | code d h =>
      obtain ⟨-, rfl⟩ := List.cons_eq_cons.1 hall
      exact h
  | comment first h =>
      have hfirst := htrimmed first List.mem_cons_self
      obtain ⟨d, rest, hd⟩ := List.exists_cons_of_ne_nil hfirst.1
      rw [hd] at hfirst hall
      obtain ⟨rfl, -⟩ := List.cons_eq_cons.1 hall
      exact absurd hc hfirst.head

/-- Blanks in front of a text belong to no trimmed comment. -/
theorem of_blanks_append {blanks : Text} (h : Carries comments (blanks ++ text))
    (hblanks : ∀ c ∈ blanks, Text.isBlank c)
    (htrimmed : ∀ comment ∈ comments, Text.IsTrimmed comment.text) : Carries comments text := by
  induction blanks with
  | nil => exact h
  | cons c blanks ih =>
      exact ih (h.of_cons (hblanks c List.mem_cons_self) htrimmed)
        fun d hd => hblanks d (List.mem_cons_of_mem _ hd)

/-- Blanks behind a text belong to no trimmed comment. -/
theorem of_append_blanks {blanks : Text} (h : Carries comments (text ++ blanks))
    (hblanks : ∀ c ∈ blanks, Text.isBlank c)
    (htrimmed : ∀ comment ∈ comments, Text.IsTrimmed comment.text) : Carries comments text := by
  induction blanks generalizing text with
  | nil => simpa using h
  | cons c blanks ih =>
      have hrest : Carries comments (text ++ [c]) :=
        ih (by simpa using h) fun d hd => hblanks d (List.mem_cons_of_mem _ hd)
      exact hrest.of_append fun comment hmem =>
        (htrimmed comment hmem).clearOf_blank (hblanks c List.mem_cons_self)

/-- Dropping characters at the end that are blanks loses no comment. -/
theorem dropRightWhile {p : CodePoint → Bool} (h : Carries comments text)
    (hp : ∀ c, p c → Text.isBlank c)
    (htrimmed : ∀ comment ∈ comments, Text.IsTrimmed comment.text) :
    Carries comments (Text.dropRightWhile p text) := by
  obtain ⟨tail, heq, htail⟩ := Text.exists_dropRightWhile_append p text
  rw [← heq] at h
  exact h.of_append_blanks (fun c hc => hp c (htail c hc)) htrimmed

/-- Dropping characters in front that are blanks loses no comment. -/
theorem dropWhile {p : CodePoint → Bool} (h : Carries comments text)
    (hp : ∀ c, p c → Text.isBlank c)
    (htrimmed : ∀ comment ∈ comments, Text.IsTrimmed comment.text) :
    Carries comments (text.dropWhile p) := by
  rw [← List.takeWhile_append_dropWhile (p := p) (l := text)] at h
  exact h.of_blanks_append (fun c hc => hp c (List.mem_takeWhile_imp hc)) htrimmed

end Carries

end VerilogLayout

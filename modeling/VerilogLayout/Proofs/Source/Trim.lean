import VerilogLayout.Proofs.Comments.Carry
import VerilogLayout.Text.Lines
import VerilogLayout.Text.Word

/-!
# Blanks at the ends of a text

A tight text has no blank at its ends. Trimming finds the tight part of a text, `exists_trim`, and
finds it again whatever blanks stand around it, `trim_append`. The same is said of longest runs of
any class: `takeWhile_append` and `dropWhile_append` cut a text where a run ends.
-/

namespace VerilogLayout.Text

/-- The text is over or goes on with a character outside of the class. -/
def Stops (p : CodePoint → Bool) (s : Text) : Prop :=
  ∀ c ∈ s.head?, p c = false

/-- No blank stands at an end of the text. -/
structure IsTight (s : Text) : Prop where
  head : Stops isBlank s
  last : Stops isBlank s.reverse

section
variable {p : CodePoint → Bool}

theorem stops_nil : Stops p [] := by
  simp [Stops]

theorem stops_cons {c : CodePoint} {s : Text} : Stops p (c :: s) ↔ p c = false := by
  simp [Stops]

/-- Nothing is taken from a text that stops at once. -/
theorem takeWhile_eq_nil {s : Text} (h : Stops p s) : s.takeWhile p = [] := by
  cases s with
  | nil => rfl
  | cons c s => rw [List.takeWhile_cons, stops_cons.1 h, if_neg Bool.false_ne_true]

/-- Nothing is dropped from a text that stops at once. -/
theorem dropWhile_eq_self {s : Text} (h : Stops p s) : s.dropWhile p = s := by
  cases s with
  | nil => rfl
  | cons c s => rw [List.dropWhile_cons, stops_cons.1 h, if_neg Bool.false_ne_true]

/-- A longest run ends where the class ends. -/
theorem takeWhile_append {run s : Text} (hrun : ∀ c ∈ run, p c) (h : Stops p s) :
    (run ++ s).takeWhile p = run := by
  rw [List.takeWhile_append_of_pos hrun, takeWhile_eq_nil h, List.append_nil]

/-- A run is dropped up to where the text stops it. -/
theorem dropWhile_append {run s : Text} (hrun : ∀ c ∈ run, p c) (h : Stops p s) :
    (run ++ s).dropWhile p = s := by
  rw [List.dropWhile_append_of_pos hrun, dropWhile_eq_self h]

/-- What is left of a text stops at once. -/
theorem stops_dropWhile (s : Text) : Stops p (s.dropWhile p) := by
  induction s with
  | nil => exact stops_nil
  | cons c s ih =>
      rw [List.dropWhile_cons]
      split
      · exact ih
      · next h => exact stops_cons.2 (Bool.eq_false_iff.2 h)

/-- Every text is a longest run and what follows it. -/
theorem exists_run (p : CodePoint → Bool) (s : Text) :
    s = s.takeWhile p ++ s.dropWhile p ∧ (∀ c ∈ s.takeWhile p, p c) ∧ Stops p (s.dropWhile p) :=
  ⟨List.takeWhile_append_dropWhile.symm, fun _ hc => List.mem_takeWhile_imp hc, stops_dropWhile s⟩

/-- A text in front does not go on with what stops. -/
theorem stops_append {s t : Text} (hs : Stops p s) (ht : Stops p t) : Stops p (s ++ t) := by
  cases s with
  | nil => exact ht
  | cons c s => exact stops_cons.2 (stops_cons.1 hs)

/-- Only the first character decides where a text stops. -/
theorem stops_append_of_ne_nil {s : Text} (hne : s ≠ []) (hs : Stops p s) (t : Text) :
    Stops p (s ++ t) := by
  obtain ⟨c, rest, rfl⟩ := List.exists_cons_of_ne_nil hne
  exact stops_cons.2 (stops_cons.1 hs)

/-- A part in front of a text starts as the text does. -/
theorem Stops.left {s t : Text} (h : Stops p (s ++ t)) : Stops p s := by
  cases s with
  | nil => exact stops_nil
  | cons c s => exact stops_cons.2 (stops_cons.1 h)

/-- The text ends with a character outside of the class. -/
def Ends (p : CodePoint → Bool) (s : Text) : Prop :=
  ∃ c ∈ s.getLast?, p c = false

/-- The end of a text is the end of its last part. -/
theorem Ends.append {t : Text} (h : Ends p t) (s : Text) : Ends p (s ++ t) := by
  obtain ⟨c, hc, hp⟩ := h
  refine ⟨c, ?_, hp⟩
  rw [Option.mem_def] at hc ⊢
  rw [List.getLast?_append, hc, Option.some_or]

/-- A text ends with its last character. -/
theorem ends_concat {c : CodePoint} (h : p c = false) (s : Text) : Ends p (s ++ [c]) :=
  ⟨c, List.getLast?_concat, h⟩

/-- A text ends where it stops from behind. -/
theorem ends_of_stops {s : Text} (hne : s ≠ []) (h : Stops p s.reverse) : Ends p s := by
  obtain ⟨c, hc⟩ := Option.ne_none_iff_exists'.1 (mt List.getLast?_eq_none_iff.1 hne)
  refine ⟨c, hc, h c ?_⟩
  rw [List.head?_reverse]
  exact hc

/-- A text that ends stops from behind. -/
theorem Ends.stops {s : Text} (h : Ends p s) : Stops p s.reverse := by
  obtain ⟨c, hc, hp⟩ := h
  intro d hd
  rw [List.head?_reverse] at hd
  obtain rfl := Option.mem_unique hc hd
  exact hp

end

/-! ## Blanks and words -/

/-- Stretches of code points without a character of a word, which hold the blanks from 128 on. -/
def wordGaps : List (Nat × Nat) :=
  [(0x80, 0xa9), (0x1680, 0x1680), (0x2000, 0x205f), (0x3000, 0x3000)]

theorem wordRanges_apart : (wordRanges.all fun range =>
    wordGaps.all fun gap => range.2 < gap.1 || gap.2 < range.1) = true := by
  decide +kernel

theorem exists_wordGap {c : CodePoint} (h : isBlank c) (hlarge : ¬ c.toNat < 128) :
    ∃ gap ∈ wordGaps, gap.1 ≤ c.toNat ∧ c.toNat ≤ gap.2 := by
  simp only [isBlank, Bool.or_eq_true, Bool.and_eq_true, beq_iff_eq, decide_eq_true_eq] at h
  simp only [wordGaps, List.mem_cons, List.not_mem_nil, or_false, exists_eq_or_imp, exists_eq_left]
  omega

/-- No blank belongs to a word. -/
theorem isWord_eq_false {c : CodePoint} (h : isBlank c) : isWord c = false := by
  by_cases hsmall : c.toNat < 128
  · have hall : ∀ n < 128, isBlank (CodePoint.ofNat n) → isWord (CodePoint.ofNat n) = false := by
      decide +kernel
    have hword := hall c.toNat hsmall
    rw [CodePoint.ofNat_toNat] at hword
    exact hword h
  · obtain ⟨gap, hgap, hfrom, hto⟩ := exists_wordGap h hsmall
    rw [isWord, if_neg hsmall, List.any_eq_false]
    intro range hrange hin
    have hapart := List.all_eq_true.1 (List.all_eq_true.1 wordRanges_apart range hrange) gap hgap
    simp only [Bool.or_eq_true, Bool.and_eq_true, decide_eq_true_eq] at hapart hin
    omega

/-! ## Trimming -/

/-- All characters are blanks. -/
abbrev AllBlank (s : Text) : Prop :=
  ∀ c ∈ s, isBlank c

theorem allBlank_nil : AllBlank [] :=
  List.forall_mem_nil _

theorem allBlank_spaces (n : Nat) : AllBlank (spaces n) := by
  intro c hc
  rw [List.eq_of_mem_replicate hc]
  rfl

/-- Trimming takes the blanks in front of a text that starts with none. -/
theorem trimLeft_append {blanks s : Text} (hblanks : AllBlank blanks) (h : Stops isBlank s) :
    trimLeft (blanks ++ s) = s :=
  dropWhile_append hblanks h

theorem trimLeft_eq_self {s : Text} (h : Stops isBlank s) : trimLeft s = s :=
  dropWhile_eq_self h

/-- Trimming takes the blanks behind a text that ends with none. -/
theorem trimRight_append {blanks s : Text} (hblanks : AllBlank blanks)
    (h : Stops isBlank s.reverse) : trimRight (s ++ blanks) = s := by
  rw [trimRight, dropRightWhile, List.reverse_append, dropWhile_append _ h, List.reverse_reverse]
  intro c hc
  exact hblanks c (List.mem_reverse.1 hc)

theorem trimRight_eq_self {s : Text} (h : Stops isBlank s.reverse) : trimRight s = s := by
  simpa using trimRight_append allBlank_nil h

/-- Trimming finds a tight text between blanks. -/
theorem trim_append {front s back : Text} (hfront : AllBlank front) (h : IsTight s)
    (hback : AllBlank back) : trim (front ++ s ++ back) = s := by
  rw [trim_eq, List.append_assoc]
  cases s with
  | nil =>
      have hall : AllBlank (front ++ back) := List.forall_mem_append.2 ⟨hfront, hback⟩
      have hleft := trimLeft_append hall stops_nil
      rw [List.append_nil] at hleft
      rw [List.nil_append, hleft]
      rfl
  | cons c s =>
      have hstops : Stops isBlank (c :: s ++ back) := stops_cons.2 (stops_cons.1 h.head)
      rw [trimLeft_append hfront hstops, trimRight_append hback h.last]

theorem trim_eq_self {s : Text} (h : IsTight s) : trim s = s := by
  simpa using trim_append allBlank_nil h allBlank_nil

/-- What is trimmed at the end is blank, and what is left ends with no blank. -/
theorem exists_trimRight (s : Text) :
    ∃ back, s = trimRight s ++ back ∧ AllBlank back ∧ Stops isBlank (trimRight s).reverse := by
  obtain ⟨back, hback, hblank⟩ := exists_dropRightWhile_append isBlank s
  refine ⟨back, hback.symm, hblank, ?_⟩
  rw [trimRight, dropRightWhile, List.reverse_reverse]
  exact stops_dropWhile _

/-- Blanks are not trimmed beyond a character that is none. -/
theorem trimRight_append_of_ends {s : Text} (hs : Ends isBlank s) (t : Text) :
    trimRight (s ++ t) = s ++ trimRight t := by
  obtain ⟨back, hsplit, hback, hstops⟩ := exists_trimRight t
  have hall : Stops isBlank (s ++ trimRight t).reverse := by
    rw [List.reverse_append]
    exact stops_append hstops hs.stops
  have htrim := trimRight_append hback hall
  rwa [List.append_assoc, ← hsplit] at htrim

/-- Nothing is trimmed in front of a character that is no blank. -/
theorem trim_cons {c : CodePoint} (h : isBlank c = false) (s : Text) :
    trim (c :: s) = c :: trimRight s := by
  rw [trim_eq, trimLeft_eq_self (stops_cons.2 h)]
  exact trimRight_append_of_ends (ends_concat h []) s

/-- A text is a tight text between blanks. -/
theorem exists_trim (s : Text) :
    ∃ front back, s = front ++ trim s ++ back ∧ AllBlank front ∧ AllBlank back ∧
      IsTight (trim s) := by
  obtain ⟨hsplit, hfront, hstops⟩ := exists_run isBlank s
  obtain ⟨back, hback, hblank, hlast⟩ := exists_trimRight (trimLeft s)
  refine ⟨s.takeWhile isBlank, back, ?_, hfront, hblank, ⟨?_, hlast⟩⟩
  · rw [trim_eq, List.append_assoc, ← hback]
    exact hsplit
  · have hleft : Stops isBlank (trimLeft s) := hstops
    rw [hback] at hleft
    rw [trim_eq]
    cases htrim : trimRight (trimLeft s) with
    | nil => exact stops_nil
    | cons c rest =>
        rw [htrim] at hleft
        exact stops_cons.2 (stops_cons.1 hleft)

/-- Trimming twice is trimming once. -/
theorem trim_trim (s : Text) : trim (trim s) = trim s := by
  obtain ⟨_, _, _, _, _, htight⟩ := exists_trim s
  exact trim_eq_self htight

end VerilogLayout.Text

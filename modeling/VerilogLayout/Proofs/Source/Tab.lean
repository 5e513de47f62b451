import VerilogLayout.Proofs.Source.Search
import VerilogLayout.Proofs.Source.Trim

/-!
# Tabs

A tab becomes at least one space and every other character stays, as `expandTabs_cons` says. So
whatever is asked of a line that does not tell blanks apart has the same answer when its tabs are
expanded.
-/

namespace VerilogLayout.Text

open expandTabs (go)

variable {width : Nat}

/-- One character of a text whose tabs are expanded. -/
theorem expandTabs_cons (hwidth : 0 < width) (column : Nat) (c : CodePoint) :
    ∃ t column', (∀ s, go width column (c :: s) = t ++ go width column' s) ∧
      (c = '\t' ∧ (∃ n, t = spaces (n + 1)) ∨ c ≠ '\t' ∧ t = [c]) := by
  by_cases htab : c = '\t'
  · have hpos : 0 < width - column % width := Nat.sub_pos_of_lt (Nat.mod_lt column hwidth)
    refine ⟨spaces (width - column % width), column + (width - column % width), fun s => ?_,
      .inl ⟨htab, width - column % width - 1, by rw [Nat.sub_add_cancel hpos]⟩⟩
    rw [go, if_pos htab]
  · by_cases hline : c = '\n' ∨ c = '\r'
    · exact ⟨[c], 0, fun s => by rw [go, if_neg htab, if_pos hline]; rfl, .inr ⟨htab, rfl⟩⟩
    · exact ⟨[c], column + 1, fun s => by rw [go, if_neg htab, if_neg hline]; rfl,
        .inr ⟨htab, rfl⟩⟩

theorem not_mem_expandTabs (hwidth : 0 < width) (s : Text) : .char '\t' ∉ expandTabs width s := by
  suffices h : ∀ column, .char '\t' ∉ go width column s from h 0
  induction s with
  | nil => exact fun _ => List.not_mem_nil
  | cons c s ih =>
      intro column
      obtain ⟨t, column', heq, ht⟩ := expandTabs_cons hwidth column c
      rw [heq, List.mem_append, not_or]
      refine ⟨?_, ih column'⟩
      rcases ht with ⟨-, n, rfl⟩ | ⟨hc, rfl⟩
      · exact fun hmem => absurd (List.eq_of_mem_replicate hmem) (by decide)
      · exact fun hmem => hc (List.mem_singleton.1 hmem).symm

theorem mem_expandTabs (hwidth : 0 < width) {s : Text} {d : CodePoint}
    (h : d ∈ expandTabs width s) : d ∈ s ∨ d = ' ' := by
  suffices hgo : ∀ column, d ∈ go width column s → d ∈ s ∨ d = ' ' from hgo 0 h
  clear h
  induction s with
  | nil => exact fun _ => .inl
  | cons c s ih =>
      intro column h
      obtain ⟨t, column', heq, ht⟩ := expandTabs_cons hwidth column c
      rw [heq] at h
      rcases List.mem_append.1 h with h | h
      · rcases ht with ⟨-, n, rfl⟩ | ⟨-, rfl⟩
        · exact .inr (List.eq_of_mem_replicate h)
        · exact .inl (List.mem_singleton.1 h ▸ List.mem_cons_self)
      · exact (ih column' h).imp_left (List.mem_cons_of_mem c)

/-- A text without tabs stays. -/
theorem expandTabs_eq_self (hwidth : 0 < width) {s : Text} (h : .char '\t' ∉ s) :
    expandTabs width s = s := by
  suffices hgo : ∀ column, go width column s = s from hgo 0
  induction s with
  | nil => exact fun _ => rfl
  | cons c s ih =>
      intro column
      rw [List.mem_cons, not_or] at h
      obtain ⟨t, column', heq, ⟨htab, -⟩ | ⟨-, rfl⟩⟩ := expandTabs_cons hwidth column c
      · exact absurd htab.symm h.1
      · rw [heq, ih h.2, List.singleton_append]

theorem head?_go (hwidth : 0 < width) {b : CodePoint} (hb : isBlank b = false) (column : Nat)
    (s : Text) : (go width column s).head? = some b ↔ s.head? = some b := by
  cases s with
  | nil => exact Iff.rfl
  | cons c s =>
      obtain ⟨t, column', heq, ht⟩ := expandTabs_cons hwidth column c
      rw [heq]
      rcases ht with ⟨rfl, n, rfl⟩ | ⟨-, rfl⟩
      · have hne : ∀ {d : CodePoint}, isBlank d → some d ≠ some b := by
          rintro d hd heq
          rw [Option.some.inj heq, hb] at hd
          cases hd
        exact iff_of_false (hne rfl) (hne rfl)
      · exact Iff.rfl

/-- The text in front of two characters is the same before and after its tabs are expanded. -/
theorem before_expandTabs (hwidth : 0 < width) {a b : CodePoint} (ha : isBlank a = false)
    (hb : isBlank b = false) (s : Text) :
    before [a, b] (expandTabs width s) = expandTabs width (before [a, b] s) := by
  have hne : ∀ {d : CodePoint}, isBlank d → d ≠ a := by
    rintro d hd rfl
    rw [ha] at hd
    cases hd
  suffices h : ∀ column, before [a, b] (go width column s) = go width column (before [a, b] s) from
    h 0
  induction s with
  | nil => exact fun _ => rfl
  | cons c s ih =>
      intro column
      obtain ⟨t, column', heq, ht⟩ := expandTabs_cons hwidth column c
      rw [heq, before_cons]
      rcases ht with ⟨rfl, n, rfl⟩ | ⟨-, rfl⟩
      · have hgap : a ∉ spaces (n + 1) := fun hmem =>
          hne rfl (List.eq_of_mem_replicate hmem).symm
        rw [before_append_of_not_mem hgap, if_neg fun hboth => hne rfl hboth.1, heq, ih]
      · rw [List.singleton_append, before_cons]
        by_cases hpair : c = a ∧ s.head? = some b
        · rw [if_pos hpair, if_pos ⟨hpair.1, (head?_go hwidth hb column' s).2 hpair.2⟩]
          rfl
        · rw [if_neg hpair, if_neg fun hboth => hpair ⟨hboth.1, (head?_go hwidth hb column' s).1
            hboth.2⟩, heq, ih, List.singleton_append]

/-- Behind the blanks in front a text starts as before. -/
theorem head?_trimLeft_expandTabs (hwidth : 0 < width) (s : Text) :
    (trimLeft (expandTabs width s)).head? = (trimLeft s).head? := by
  suffices h : ∀ column, (trimLeft (go width column s)).head? = (trimLeft s).head? from h 0
  induction s with
  | nil => exact fun _ => rfl
  | cons c s ih =>
      intro column
      obtain ⟨t, column', heq, ht⟩ := expandTabs_cons hwidth column c
      rw [heq]
      rcases ht with ⟨rfl, n, rfl⟩ | ⟨-, rfl⟩
      · have hleft :
            trimLeft (spaces (n + 1) ++ go width column' s) = trimLeft (go width column' s) :=
          List.dropWhile_append_of_pos (allBlank_spaces _)
        rw [hleft, ih]
        rfl
      · rw [List.singleton_append, trimLeft, trimLeft, List.dropWhile_cons, List.dropWhile_cons]
        split
        · exact ih column'
        · rfl

end VerilogLayout.Text

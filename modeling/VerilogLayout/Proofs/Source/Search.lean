import VerilogLayout.Text.Blank
import VerilogLayout.Text.Lines

/-!
# Searching for two characters

Comments start with two characters, so searching for them is comparing neighbours. `before_cons` and
`includes_cons` say this for one step; all else is induction on the text that is searched. What the
lines of a text hold is said at the end.
-/

namespace VerilogLayout.Text

variable {a b : CodePoint}

theorem startsWith_iff {s t : Text} : startsWith s t ↔ t <+: s :=
  List.isPrefixOf_iff_prefix

/-- What is included stands somewhere in the text. -/
theorem includes_iff {s t : Text} : includes s t ↔ t <:+: s := by
  induction s with
  | nil =>
      rw [List.infix_nil, includes, find?]
      split
      · next h => simpa using h
      · next h => simpa using h
  | cons c s ih =>
      rw [List.infix_cons_iff, ← startsWith_iff, ← ih, includes, includes, find?]
      split
      · next h => simp [h]
      · next h => simp [h]

/-- What a text lacks is lacking in its parts as well. -/
theorem includes_eq_false_of_infix {s t u : Text} (h : includes s u = false) (hts : t <:+: s) :
    includes t u = false := by
  rw [Bool.eq_false_iff] at h ⊢
  exact fun hincludes => h (includes_iff.2 ((includes_iff.1 hincludes).trans hts))

/-- A pair of characters starts a text with the first one and then the second. -/
theorem startsWith_pair (c : CodePoint) (s : Text) :
    startsWith (c :: s) [a, b] = (decide (c = a) && decide (s.head? = some b)) := by
  rw [Bool.eq_iff_iff, startsWith_iff]
  cases s with
  | nil => simp
  | cons d s => simp [List.cons_prefix_cons, @eq_comm CodePoint a, @eq_comm CodePoint b]

/-- A pair is found at the first place, or behind it. -/
theorem find?_cons (c : CodePoint) (s : Text) :
    find? [a, b] (c :: s) =
      if c = a ∧ s.head? = some b then some 0 else (find? [a, b] s).map (· + 1) := by
  rw [find?, startsWith_pair, ← Bool.decide_and]
  simp only [decide_eq_true_eq]

/-- A pair stands at the first place, or behind it. -/
theorem includes_cons (c : CodePoint) (s : Text) :
    includes (c :: s) [a, b] =
      (decide (c = a ∧ s.head? = some b) || includes s [a, b]) := by
  rw [includes, includes, find?_cons]
  split
  · next h => simp [h]
  · next h => simp [h]

/-- A text is cut at the first place where the pair starts. -/
theorem before_cons (c : CodePoint) (s : Text) :
    before [a, b] (c :: s) =
      if c = a ∧ s.head? = some b then [] else c :: before [a, b] s := by
  rw [before, before, find?_cons]
  by_cases h : c = a ∧ s.head? = some b
  · rw [if_pos h, if_pos h]
    rfl
  · rw [if_neg h, if_neg h]
    cases find? [a, b] s with
    | none => rfl
    | some n => rfl

/-- The part before is a part of the text, and the characters stand behind it. -/
theorem before_append_drop (s : Text) :
    before [a, b] s ++ s.drop (before [a, b] s).length = s ∧
      (s.drop (before [a, b] s).length = [] ∨
        [a, b] <+: s.drop (before [a, b] s).length) := by
  induction s with
  | nil => exact ⟨rfl, .inl rfl⟩
  | cons c s ih =>
      rw [before_cons]
      split
      · next h =>
          refine ⟨rfl, .inr ?_⟩
          rw [List.length_nil, List.drop_zero, ← startsWith_iff, startsWith_pair]
          simp [h]
      · exact ⟨congrArg (c :: ·) ih.1, ih.2⟩

/-- The part in front of a pair is empty or starts as the text. -/
theorem head?_before (s : Text) : (before [a, b] s).head? = none ∨
    (before [a, b] s).head? = s.head? := by
  cases s with
  | nil => exact .inl rfl
  | cons c s =>
      rw [before_cons]
      split
      · exact .inl rfl
      · exact .inr rfl

/-- The characters do not stand in the part before them. -/
theorem includes_before (s : Text) : includes (before [a, b] s) [a, b] = false := by
  induction s with
  | nil => rfl
  | cons c s ih =>
      rw [before_cons]
      split
      · rfl
      · next h =>
          rw [includes_cons, ih, Bool.or_false, decide_eq_false_iff_not]
          rintro ⟨rfl, hhead⟩
          rcases head?_before (a := c) (b := b) s with hnone | hsame
          · rw [hnone] at hhead
            cases hhead
          · exact h ⟨rfl, hsame ▸ hhead⟩

/-- Without the pair nothing is cut. -/
theorem before_eq_self {s : Text} (h : includes s [a, b] = false) : before [a, b] s = s := by
  induction s with
  | nil => rfl
  | cons c s ih =>
      rw [includes_cons, Bool.or_eq_false_iff, decide_eq_false_iff_not] at h
      rw [before_cons, if_neg h.1, ih h.2]

/-- Where two texts meet the characters do not stand unless one ends and the other starts with
them. -/
theorem includes_append {s t : Text} (h : s.getLast? ≠ some a ∨ t.head? ≠ some b) :
    includes (s ++ t) [a, b] = (includes s [a, b] || includes t [a, b]) := by
  induction s with
  | nil => rfl
  | cons c s ih =>
      rw [List.cons_append, includes_cons, includes_cons]
      cases s with
      | nil =>
          have hpair : ¬ (c = a ∧ t.head? = some b) := fun hboth =>
            h.elim (fun hne => hne (congrArg some hboth.1)) fun hne => hne hboth.2
          rw [List.nil_append, decide_eq_false hpair]
          simp [includes, find?]
      | cons d s =>
          rw [List.getLast?_cons_cons] at h
          rw [ih h, Bool.or_assoc]
          rfl

/-- A text is cut where the characters stand for the first time. -/
theorem before_append {s : Text} (h : includes s [a, b] = false) (hlast : s.getLast? ≠ some a)
    (t : Text) : before [a, b] (s ++ a :: b :: t) = s := by
  induction s with
  | nil => rw [List.nil_append, before_cons, if_pos ⟨rfl, rfl⟩]
  | cons c s ih =>
      rw [includes_cons, Bool.or_eq_false_iff, decide_eq_false_iff_not] at h
      rw [List.cons_append, before_cons]
      cases s with
      | nil =>
          have hne : c ≠ a := fun heq => hlast (congrArg some heq)
          rw [if_neg fun hboth => hne hboth.1, ih rfl (by simp)]
      | cons d s =>
          have hlast' : (d :: s).getLast? ≠ some a := by
            rwa [List.getLast?_cons_cons] at hlast
          have hhead : (d :: s ++ a :: b :: t).head? = (d :: s).head? := rfl
          rw [hhead, if_neg h.1, ih h.2 hlast']

/-- A text in front that lacks the first character is passed by. -/
theorem before_append_of_not_mem {s : Text} (h : a ∉ s) (t : Text) :
    before [a, b] (s ++ t) = s ++ before [a, b] t := by
  induction s with
  | nil => rfl
  | cons c s ih =>
      rw [List.mem_cons, not_or] at h
      rw [List.cons_append, before_cons, if_neg fun hboth => h.1 hboth.1.symm, ih h.2,
        List.cons_append]

/-- A text behind that lacks both characters is cut off or stays as a whole. -/
theorem exists_before_append {t : Text} (ha : a ∉ t) (hb : b ∉ t) (s : Text) :
    ∃ u, u <+: t ∧ before [a, b] (s ++ t) = before [a, b] s ++ u := by
  induction s with
  | nil =>
      have hall := before_append_of_not_mem (b := b) ha []
      rw [List.append_nil] at hall
      exact ⟨t, List.prefix_refl t, hall.trans (List.append_nil t)⟩
  | cons c s ih =>
      have hhead : (s ++ t).head? = some b ↔ s.head? = some b := by
        cases s with
        | nil => exact iff_of_false (fun h => hb (List.mem_of_head? h)) nofun
        | cons d s => exact Iff.rfl
      rw [List.cons_append, before_cons, before_cons]
      by_cases h : c = a ∧ s.head? = some b
      · rw [if_pos h, if_pos ⟨h.1, hhead.2 h.2⟩]
        exact ⟨[], List.nil_prefix, rfl⟩
      · obtain ⟨u, hu, heq⟩ := ih
        rw [if_neg h, if_neg fun hboth => h ⟨hboth.1, hhead.1 hboth.2⟩, heq]
        exact ⟨u, hu, rfl⟩

/-- A text that holds the pair only in front of `t` is cut in front of `t`. -/
theorem exists_cut {s t : Text} (ht : includes t [a, b] = false) (h : includes (s ++ t) [a, b]) :
    ∃ behind, s = before [a, b] (s ++ t) ++ a :: behind := by
  obtain ⟨happend, hstart⟩ := before_append_drop (a := a) (b := b) (s ++ t)
  rcases hstart with hnil | ⟨rest, hrest⟩
  · rw [hnil, List.append_nil] at happend
    rw [← happend] at h
    exact absurd h (Bool.eq_false_iff.1 (includes_before (s ++ t)))
  · rw [← hrest] at happend
    generalize before [a, b] (s ++ t) = front at happend ⊢
    have hnot : ∀ more, t ≠ more ++ [a, b] ++ rest := fun more heq =>
      Bool.eq_false_iff.1 ht (includes_iff.2 ⟨more, rest, heq.symm⟩)
    rcases List.append_eq_append_iff.1 happend with ⟨more, hmore, heq⟩ | ⟨more, -, heq⟩
    · cases more with
      | nil => exact absurd heq.symm (hnot [])
      | cons c more =>
          obtain ⟨rfl, -⟩ := List.cons.inj heq
          exact ⟨more, hmore⟩
    · rw [← List.append_assoc] at heq
      exact absurd heq (hnot more)

/-- Without its first character there is no pair. -/
theorem includes_of_not_mem {s : Text} (h : a ∉ s) : includes s [a, b] = false := by
  induction s with
  | nil => rfl
  | cons c s ih =>
      rw [List.mem_cons, not_or] at h
      rw [includes_cons, ih h.2, Bool.or_false, decide_eq_false_iff_not]
      exact fun hboth => h.1 hboth.1.symm

/-! ## Lines -/

theorem not_mem_of_mem_splitOn {separator : CodePoint} {s line : Text}
    (h : line ∈ List.splitOn separator s) : separator ∉ line := by
  induction s generalizing line with
  | nil =>
      rw [List.splitOn_nil, List.mem_singleton] at h
      rw [h]
      exact List.not_mem_nil
  | cons c s ih =>
      rw [List.splitOn_cons_eq_if_modifyHead] at h
      split at h
      · rcases List.mem_cons.1 h with rfl | h
        · exact List.not_mem_nil
        · exact ih h
      · next hne =>
          cases hparts : List.splitOn separator s with
          | nil => exact absurd hparts (List.splitOn_ne_nil separator s)
          | cons part parts =>
              rw [hparts] at h ih
              rcases List.mem_cons.1 h with rfl | h
              · rw [List.mem_cons, not_or]
                exact ⟨fun heq => hne (beq_iff_eq.2 heq.symm), ih List.mem_cons_self⟩
              · exact ih (List.mem_cons_of_mem _ h)

/-- Joined texts are the first one and the others, each behind the separator. -/
theorem intercalate_cons (separator s : Text) (rest : List Text) :
    List.intercalate separator (s :: rest) = s ++ rest.flatMap (separator ++ ·) := by
  induction rest generalizing s with
  | nil => rw [List.intercalate_singleton, List.flatMap_nil, List.append_nil]
  | cons next rest ih =>
      rw [List.intercalate_cons_cons, ih, List.flatMap_cons, List.append_assoc, List.append_assoc]

/-- Joined lines have only their own characters and those between them. -/
theorem mem_of_mem_intercalate {c : CodePoint} {separator : Text} {lines : List Text}
    (h : c ∈ List.intercalate separator lines) : c ∈ separator ∨ ∃ line ∈ lines, c ∈ line := by
  cases lines with
  | nil => rw [List.intercalate_nil] at h; cases h
  | cons line rest =>
      rw [intercalate_cons, List.mem_append, List.mem_flatMap] at h
      rcases h with h | ⟨other, hother, h⟩
      · exact .inr ⟨line, List.mem_cons_self, h⟩
      · exact (List.mem_append.1 h).imp_right fun hc => ⟨other, List.mem_cons_of_mem _ hother, hc⟩

/-- Joined lines have all of their own characters. -/
theorem mem_intercalate {c : CodePoint} {separator line : Text} {lines : List Text}
    (hline : line ∈ lines) (hc : c ∈ line) : c ∈ List.intercalate separator lines := by
  obtain ⟨first, rest, rfl⟩ := List.exists_cons_of_ne_nil (List.ne_nil_of_mem hline)
  rw [intercalate_cons, List.mem_append, List.mem_flatMap]
  rcases List.mem_cons.1 hline with rfl | hline
  · exact .inl hc
  · exact .inr ⟨line, hline, List.mem_append_right _ hc⟩

/-- The lines of a text have only its characters. -/
theorem mem_of_mem_splitOn {separator c : CodePoint} {s line : Text}
    (h : line ∈ List.splitOn separator s) (hc : c ∈ line) : c ∈ s := by
  have hjoin : List.intercalate [separator] (List.splitOn separator s) = s :=
    List.intercalate_splitOn separator
  exact hjoin ▸ mem_intercalate h hc

end VerilogLayout.Text

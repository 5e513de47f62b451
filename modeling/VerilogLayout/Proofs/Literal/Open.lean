import VerilogLayout.Proofs.Literal.Lexing

/-!
# Block comments that stay open

Which lines belong to a block comment is found out from the last signs on a line, without reading
its strings, `inComment_next`. A lexer finds the same comments open unless one of the literals on
the line misleads: `inComment_of_along`.
-/

namespace VerilogLayout

/-! ## The last sign of a line -/

namespace BlockState

section
variable (a b c : CodePoint) (s : Text)

theorem lastPlace_cons :
    lastPlace [a, b] (c :: s) =
      if lastPlace [a, b] s = 0 then if c = a ∧ s.head? = some b then 1 else 0
      else lastPlace [a, b] s + 1 := by
  unfold lastPlace
  rw [Text.findLast?, Text.startsWith_pair, ← Bool.decide_and]
  cases Text.findLast? [a, b] s with
  | none =>
      by_cases h : c = a ∧ s.head? = some b
      · simp [h]
      · simp [h]
  | some n => rfl

theorem includes_eq_lastPlace :
    Text.includes s [a, b] = decide (lastPlace [a, b] s ≠ 0) := by
  induction s with
  | nil => rfl
  | cons c s ih =>
      rw [Text.includes_cons, ih, lastPlace_cons]
      by_cases hlater : lastPlace [a, b] s = 0
      · by_cases hhere : c = a ∧ s.head? = some b <;> simp [hlater, hhere]
      · simp [hlater]

end

/-- Whether a block comment seems to be open where `c` stands in front of `s`: the signs that start
and end one count with their first character. -/
def openAt (inComment : Bool) (c : CodePoint) (s : Text) : Bool :=
  if c = '/' ∧ s.head? = some (.char '*') then true
  else if c = '*' ∧ s.head? = some (.char '/') then false
  else inComment

/-- Whether a block comment seems to be open behind a text. -/
def openBehind (inComment : Bool) : Text → Bool
  | [] => inComment
  | c :: s => openBehind (openAt inComment c s) s

theorem openBehind_eq (inComment : Bool) (s : Text) :
    openBehind inComment s =
      if lastPlace "/*" s = 0 ∧ lastPlace "*/" s = 0 then inComment
      else decide (lastPlace "/*" s > lastPlace "*/" s) := by
  have hstart : ("/*" : Text) = [.char '/', .char '*'] := rfl
  have hend : ("*/" : Text) = [.char '*', .char '/'] := rfl
  rw [hstart, hend]
  induction s generalizing inComment with
  | nil => rfl
  | cons c s ih =>
      rw [openBehind, ih, lastPlace_cons, lastPlace_cons, openAt]
      generalize lastPlace [.char '/', .char '*'] s = p
      generalize lastPlace [.char '*', .char '/'] s = q
      by_cases hp : p = 0
      · by_cases hq : q = 0
        · by_cases hstarts : c = '/' ∧ s.head? = some (.char '*')
          · simp [hp, hq, hstarts]
          · simp [hp, hq, hstarts]
        · by_cases hstarts : c = '/' ∧ s.head? = some (.char '*') <;> simp [hp, hq, hstarts]
      · by_cases hq : q = 0
        · by_cases hends : c = '*' ∧ s.head? = some (.char '/') <;>
            simp [hp, hq, hends, Nat.pos_of_ne_zero]
        · simp [hp, hq]

/-- What the next line belongs to is decided by the last sign in front of a line comment. -/
theorem inComment_next (state : BlockState) (line : Text) :
    (state.next line).inComment = openBehind state.inComment (code line) := by
  have hstart : ("/*" : Text) = [.char '/', .char '*'] := rfl
  have hend : ("*/" : Text) = [.char '*', .char '/'] := rfl
  rw [openBehind_eq]
  unfold next keeps
  dsimp only
  rw [hstart, hend, includes_eq_lastPlace, includes_eq_lastPlace]
  generalize lastPlace [.char '/', .char '*'] (code line) = p
  generalize lastPlace [.char '*', .char '/'] (code line) = q
  cases hin : state.inComment with
  | true =>
      by_cases hp : p = 0 <;> by_cases hq : q = 0 <;> simp [hp, hq, Nat.pos_of_ne_zero]
  | false =>
      by_cases hp : p = 0
      · have hnone : (if p = 0 ∧ q = 0 then false else decide (p > q)) = false := by
          simp [hp]
        rw [hnone, hp, if_neg (by decide)]
        split
        · rfl
        · split
          · rfl
          · exact hin
      · simp [hp]

end BlockState

/-! ## Literals that mislead -/

/-- A block comment that seems to end with the star that starts it, or a string that seems to hold
a line comment. -/
def Misleads (literal : Text) : Prop :=
  ("/*/" : Text) <+: literal ∨ literal.head? = some (.char '"') ∧ ("//" : Text) <:+: literal

instance (literal : Text) : Decidable (Misleads literal) :=
  inferInstanceAs (Decidable (_ ∨ _ ∧ _))

namespace Lexing

/-- The literals that end in a text and the one that is open behind it. -/
def shown (r : Lexing) (s : Text) : List Text :=
  r.found s ++ [(r.along s).kept]

/-- In front of `s` a block comment seems to be open if one is. -/
def Tracked (inComment : Bool) (s : Text) : Lexing → Prop
  | .code slash => slash → s.head? = some (.char '*') → inComment
  | .blockComment star _ => inComment ∨ star ∧ s.head? = some (.char '/')
  | _ => True

theorem shown_append (r : Lexing) (s t : Text) :
    r.shown (s ++ t) = r.found s ++ (r.along s).shown t := by
  rw [shown, found_append, along_append, List.append_assoc, shown]

theorem shown_cons (r : Lexing) (c : CodePoint) (s : Text) :
    r.shown (c :: s) = r.closed c ++ (r.next c).shown s := by
  rw [shown, found_cons, along_cons, List.append_assoc, shown]

/-- A literal that has been started is shown. -/
theorem exists_shown {r : Lexing} (hr : r.IsInside) {s : Text} (hs : .char '\n' ∉ s) :
    ∃ l ∈ r.shown s, r.kept <+: l := by
  rcases prefix_of_isInside hr hs with ⟨-, h⟩ | ⟨l, hl, h⟩
  · exact ⟨_, List.mem_append_right _ (List.mem_singleton_self _), h⟩
  · exact ⟨l, List.mem_append_left _ hl, h⟩

/-- What is read in a literal belongs to it. -/
theorem exists_mem_shown {r : Lexing} (hr : r.IsInside) {c : CodePoint} {s : Text}
    (hs : .char '\n' ∉ c :: s) : ∃ l ∈ r.shown (c :: s), c ∈ l := by
  rw [List.mem_cons, not_or] at hs
  rw [shown_cons]
  rcases next_of_isInside hr hs.1 with hclosed | ⟨hin, hkept⟩
  · rw [hclosed]
    exact ⟨_, List.mem_append_left _ (List.mem_singleton_self _), List.mem_concat_self⟩
  · obtain ⟨l, hl, hprefix⟩ := exists_shown hin hs.2
    rw [hkept] at hprefix
    exact ⟨l, List.mem_append_right _ hl, hprefix.subset List.mem_concat_self⟩

/-- What seems to be open is followed along one character of the text in front of `rest`. -/
theorem Tracked.next {inComment : Bool} {r : Lexing} {c : CodePoint} {s rest : Text}
    (h : Tracked inComment (c :: s) r) (hs : .char '\n' ∉ s ++ rest)
    (hclear : ∀ l ∈ r.shown (c :: (s ++ rest)), ¬ Misleads l) :
    Tracked (BlockState.openAt inComment c s) s (r.next c) := by
  cases r with
  | code slash =>
      rw [Lexing.next]
      split
      · trivial
      · split
        · next hstart =>
            obtain ⟨hslash, rfl⟩ := hstart
            obtain rfl : inComment = true := h hslash rfl
            left
            rw [BlockState.openAt, if_neg fun hboth => absurd hboth.1 (by decide)]
            refine if_neg fun hends => ?_
            -- The star would start the comment and end it.
            obtain ⟨s, rfl⟩ := List.head?_eq_some_iff.1 hends.2
            have hfeed : .char '\n' ∉ s ++ rest := fun hmem => hs (List.mem_cons_of_mem _ hmem)
            have hnext : (Lexing.code slash).next '*' = .blockComment false [] := by
              rw [hslash]
              rfl
            obtain ⟨l, hl, hprefix⟩ :=
              exists_shown (r := .blockComment false [.char '/']) trivial hfeed
            refine hclear l ?_ (.inl hprefix)
            rw [shown_cons, hnext, List.cons_append, shown_cons]
            exact List.mem_append_right _ (List.mem_append_right _ hl)
        · split
          · trivial
          · intro hc hhead
            exact if_pos ⟨of_decide_eq_true hc, hhead⟩
  | string escaped body =>
      rw [Lexing.next]
      split
      · exact fun hslash => absurd hslash Bool.false_ne_true
      · trivial
  | lineComment =>
      rw [Lexing.next]
      split
      · exact fun hslash => absurd hslash Bool.false_ne_true
      · trivial
  | blockComment star body =>
      rw [Lexing.next]
      split
      · exact fun hslash => absurd hslash Bool.false_ne_true
      · next hopen =>
          have hin : inComment = true := by
            rcases h with h | ⟨hstar, hhead⟩
            · exact h
            · exact absurd ⟨hstar, Option.some.inj hhead⟩ hopen
          by_cases hends : c = '*' ∧ s.head? = some (.char '/')
          · exact .inr ⟨decide_eq_true hends.1, hends.2⟩
          · left
            rw [BlockState.openAt, if_neg hends, hin, ite_self]

theorem Tracked.along {inComment : Bool} {r : Lexing} {s rest : Text}
    (h : Tracked inComment s r) (hs : .char '\n' ∉ s ++ rest)
    (hclear : ∀ l ∈ r.shown (s ++ rest), ¬ Misleads l) :
    Tracked (BlockState.openBehind inComment s) [] (r.along s) := by
  induction s generalizing r inComment with
  | nil => exact h
  | cons c s ih =>
      rw [List.cons_append, List.mem_cons, not_or] at hs
      refine ih (h.next hs.2 hclear) hs.2 fun l hl => hclear l ?_
      rw [List.cons_append, shown_cons]
      exact List.mem_append_right _ hl

/-- The lexer stands in a block comment. -/
def IsBlock : Lexing → Prop
  | .blockComment .. => True
  | _ => False

instance (r : Lexing) : Decidable r.IsBlock :=
  match r with
  | .blockComment .. => .isTrue trivial
  | .code _ => .isFalse id
  | .string .. => .isFalse id
  | .lineComment => .isFalse id

/-- A block comment that is open behind a line is seen to be open if no literal on the line
misleads. -/
theorem inComment_of_along {state : BlockState} {r : Lexing} {line : Text}
    (hline : .char '\n' ∉ line)
    (hstart : r = .code false ∨ state.inComment) (hclear : ∀ l ∈ r.shown line, ¬ Misleads l)
    (hblock : (r.along line).IsBlock) : (state.next line).inComment := by
  rw [BlockState.inComment_next, BlockState.code]
  obtain ⟨rest, hsplit, hrest⟩ := exists_behind_code line
  generalize Text.before "//" line = code at hsplit ⊢
  subst hsplit
  have htracked : Tracked state.inComment code r := by
    rcases hstart with rfl | hin
    · exact fun hslash => absurd hslash Bool.false_ne_true
    · rw [hin]
      cases r <;> simp [Tracked]
  have hend := htracked.along hline hclear
  rw [List.mem_append, not_or] at hline
  rw [along_append] at hblock
  -- The tracker looks only at the code before the slashes; the cases are what the lexer is in where
  -- that code ends.
  cases hcode : r.along code with
  | code slash =>
      rw [hcode] at hblock
      rcases hrest with rfl | ⟨t, rfl⟩
      · cases hblock
      · have hfeed : .char '\n' ∉ t := fun hmem => hline.2 (List.mem_append_right _ hmem)
        rw [(read_slashes slash hfeed).1] at hblock
        cases hblock
  | lineComment =>
      rw [hcode, (read_lineComment hline.2).1] at hblock
      cases hblock
  | string escaped body =>
      rw [hcode] at hblock
      rcases hrest with rfl | ⟨t, rfl⟩
      · cases hblock
      · -- The string goes on behind the two slashes.
        have hfeed : .char '\n' ∉ t := fun hmem => hline.2 (List.mem_append_right _ hmem)
        have hnext : (string escaped body).along [.char '/', .char '/'] =
            string false (body ++ [.char '/', .char '/']) := by simp [along, next]
        obtain ⟨l, hl, hprefix⟩ :=
          exists_shown (r := .string false (body ++ [.char '/', .char '/'])) trivial hfeed
        have hmem : l ∈ r.shown (code ++ ([.char '/', .char '/'] ++ t)) := by
          rw [shown_append, shown_append, hcode, hnext]
          exact List.mem_append_right _ (List.mem_append_right _ hl)
        obtain ⟨u, rfl⟩ := hprefix
        exact absurd (.inr ⟨rfl, .char '"' :: body, u, by simp [kept]⟩) (hclear _ hmem)
  | blockComment star body =>
      rw [hcode] at hend
      rcases hend with hin | ⟨-, hhead⟩
      · exact hin
      · cases hhead

end Lexing

end VerilogLayout

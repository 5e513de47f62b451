import Mathlib.Algebra.Group.Nat.Defs
import VerilogLayout.Data.Limit
import VerilogLayout.Number.Spelling

/-!
# What the text of an integer spells

`SpellsInteger s n` says that `s` is a spelling of `n`: a sign that may be absent and groups of
digits of any script, a single underscore between each two. The relation does not mention the
reader, and `readInteger?_eq_some` says that the reader accepts exactly these spellings.
-/

namespace VerilogLayout.Number

/-- One or more digits of any script. -/
structure IsRun (s : Text) : Prop where
  ne_nil : s ≠ []
  digit : ∀ c ∈ s, (Text.digit? c).isSome

/-- Groups of digits with underscores between them, and the digits alone. -/
inductive SpellsDigits : Text → Text → Prop
  | run {run : Text} (h : IsRun run) : SpellsDigits run run
  | group {run rest digits : Text} (h : IsRun run) (hrest : SpellsDigits rest digits) :
      SpellsDigits (run ++ .char '_' :: rest) (run ++ digits)

/-- The signs that an integer may have, and whether it is negative then. -/
def signs : List (Text × Bool) :=
  [("", false), ("+", false), ("-", true)]

/-- A text without blanks around it and the integer it spells. -/
inductive SpellsInteger : Text → Int → Prop
  | mk {sign body digits : Text} {negative : Bool} (hsign : (sign, negative) ∈ signs)
      (hdigits : SpellsDigits body digits) (hsize : digits.length ≤ maxDigits) :
      SpellsInteger (sign ++ body) (signed negative (digitsValue digits))

/-! ## Digits -/

/-- An underscore and a sign are no digits. -/
theorem ne_of_isSome_digit? {c : CodePoint} (h : (Text.digit? c).isSome) :
    c ≠ '_' ∧ c ≠ '+' ∧ c ≠ '-' := by
  refine ⟨?_, ?_, ?_⟩
  all_goals
    rintro rfl
    revert h
    decide +kernel

/-- One more digit in front leaves a run. -/
theorem IsRun.cons {c : CodePoint} {s : Text} (hc : (Text.digit? c).isSome) (h : IsRun s) :
    IsRun (c :: s) :=
  ⟨List.cons_ne_nil c s, List.forall_mem_cons.2 ⟨hc, h.digit⟩⟩

theorem isRun_singleton {c : CodePoint} (hc : (Text.digit? c).isSome) : IsRun [c] :=
  ⟨List.cons_ne_nil c [], List.forall_mem_singleton.2 hc⟩

/-- A digit in front joins the first group. -/
theorem SpellsDigits.cons {c : CodePoint} {s digits : Text} (hc : (Text.digit? c).isSome)
    (h : SpellsDigits s digits) : SpellsDigits (c :: s) (c :: digits) := by
  cases h with
  | run h => exact .run (h.cons hc)
  | group h hrest => exact .group (h.cons hc) hrest

/-- A spelling starts with a digit. -/
theorem SpellsDigits.exists_cons {s digits : Text} (h : SpellsDigits s digits) :
    ∃ c rest, s = c :: rest ∧ (Text.digit? c).isSome := by
  have hrun : ∀ {run : Text}, IsRun run → ∀ t, ∃ c rest, run ++ t = c :: rest ∧
      (Text.digit? c).isSome := by
    intro run hrun t
    obtain ⟨c, rest, rfl⟩ := List.exists_cons_of_ne_nil hrun.ne_nil
    exact ⟨c, rest ++ t, rfl, hrun.digit c List.mem_cons_self⟩
  cases h with
  | run h => simpa using hrun h []
  | group h hrest => exact hrun h _

/-- Without its underscores a spelling is its digits. -/
theorem SpellsDigits.filter_eq {s digits : Text} (h : SpellsDigits s digits) :
    s.filter (· ≠ .char '_') = digits := by
  have hrun : ∀ {run : Text}, IsRun run → run.filter (· ≠ .char '_') = run := fun h =>
    List.filter_eq_self.2 fun c hc => decide_eq_true (ne_of_isSome_digit? (h.digit c hc)).1
  induction h with
  | run h => exact hrun h
  | group h hrest ih =>
      rw [List.filter_append, hrun h, List.filter_cons_of_neg (by simp), ih]

/-- The value of digits that go on a number. -/
def extend (value : Nat) (digits : Text) : Nat :=
  digits.foldl (fun n c => 10 * n + (Text.digit? c).getD 0) value

/-- The first digit is the one that is added first. -/
theorem extend_cons {c : CodePoint} {d : Nat} (hc : Text.digit? c = some d) (value : Nat)
    (digits : Text) : extend value (c :: digits) = extend (10 * value + d) digits := by
  rw [extend, List.foldl_cons, hc]
  rfl

/-- A digit is added to the value. -/
theorem go_digit {c : CodePoint} {d : Nat} (hc : Text.digit? c = some d) (value : Nat)
    (afterDigit : Bool) (s : Text) :
    readDigits?.go Text.digit? value afterDigit (c :: s) =
      readDigits?.go Text.digit? (10 * value + d) true s := by
  have hne : c ≠ '_' := (ne_of_isSome_digit? (by rw [hc]; rfl)).1
  rw [readDigits?.go, if_neg hne, hc]

/-- A run is read digit by digit. -/
theorem go_append {run : Text} (h : IsRun run) (value : Nat) (afterDigit : Bool) (s : Text) :
    readDigits?.go Text.digit? value afterDigit (run ++ s) =
      readDigits?.go Text.digit? (extend value run) true s := by
  obtain ⟨hne, hdigit⟩ := h
  induction run generalizing value afterDigit with
  | nil => exact absurd rfl hne
  | cons c rest ih =>
      obtain ⟨hc, hrest⟩ := List.forall_mem_cons.1 hdigit
      obtain ⟨d, hd⟩ := Option.isSome_iff_exists.1 hc
      rw [List.cons_append, go_digit hd, extend_cons hd]
      cases rest with
      | nil => rfl
      | cons next others => exact ih _ _ (List.cons_ne_nil _ _) hrest

/-- Every spelling is read. -/
theorem SpellsDigits.go_eq {s digits : Text} (h : SpellsDigits s digits) (value : Nat)
    (afterDigit : Bool) :
    readDigits?.go Text.digit? value afterDigit s = some (extend value digits) := by
  induction h generalizing value afterDigit with
  | run h =>
      have hgo := go_append h value afterDigit []
      rw [List.append_nil] at hgo
      exact hgo
  | @group run rest digits h hrest ih =>
      rw [go_append h, readDigits?.go, if_pos rfl, if_pos rfl, ih, extend, extend, extend,
        List.foldl_append]

/-- What is read is a spelling, of which a digit in front and the underscore behind it may have been
read before. -/
theorem spellsDigits_of_go {value n : Nat} {afterDigit : Bool} {s : Text}
    (h : readDigits?.go Text.digit? value afterDigit s = some n) :
    (∃ digits, SpellsDigits s digits ∧ n = extend value digits) ∨ afterDigit = true ∧
      (s = [] ∧ n = value ∨ ∃ rest digits, s = .char '_' :: rest ∧ SpellsDigits rest digits ∧
        n = extend value digits) := by
  induction s generalizing value afterDigit with
  | nil =>
      rw [readDigits?.go] at h
      split at h
      · next hafter => exact .inr ⟨hafter, .inl ⟨rfl, (Option.some.inj h).symm⟩⟩
      · cases h
  | cons c s ih =>
      by_cases hc : c = '_'
      · subst hc
        rw [readDigits?.go, if_pos rfl] at h
        split at h
        · next hafter =>
            -- Behind an underscore only a digit can follow.
            obtain ⟨digits, hdigits, hn⟩ := (ih h).resolve_right (by simp)
            exact .inr ⟨hafter, .inr ⟨s, digits, rfl, hdigits, hn⟩⟩
        · cases h
      · cases hdigit : Text.digit? c with
        | none =>
            rw [readDigits?.go, if_neg hc, hdigit] at h
            cases h
        | some d =>
            have hsome : (Text.digit? c).isSome := by rw [hdigit]; rfl
            rw [go_digit hdigit] at h
            rcases ih h with
              ⟨digits, hdigits, rfl⟩ | ⟨-, ⟨rfl, rfl⟩ | ⟨rest, digits, rfl, hdigits, rfl⟩⟩
            · exact .inl ⟨c :: digits, hdigits.cons hsome, (extend_cons hdigit _ _).symm⟩
            · exact .inl ⟨[c], .run (isRun_singleton hsome), (extend_cons hdigit value []).symm⟩
            · exact .inl ⟨c :: digits, .group (isRun_singleton hsome) hdigits,
                (extend_cons hdigit _ _).symm⟩

/-! ## Signs -/

/-- The sign in front is found, since no digit is a sign. -/
theorem splitSign_append {sign body digits : Text} {negative : Bool}
    (hsign : (sign, negative) ∈ signs) (hdigits : SpellsDigits body digits) :
    splitSign (sign ++ body) = (negative, body) := by
  obtain ⟨c, rest, rfl, hc⟩ := hdigits.exists_cons
  obtain ⟨-, hplus, hminus⟩ := ne_of_isSome_digit? hc
  simp only [signs, List.mem_cons, List.not_mem_nil, or_false, Prod.mk.injEq] at hsign
  rcases hsign with ⟨rfl, rfl⟩ | ⟨rfl, rfl⟩ | ⟨rfl, rfl⟩
  · show splitSign (c :: rest) = _
    rw [splitSign]
    · exact fun _ h => hminus (List.cons.inj h).1
    · exact fun _ h => hplus (List.cons.inj h).1
  · rfl
  · rfl

/-- A sign is split off in front, or nothing is. -/
theorem exists_sign (s : Text) :
    ∃ sign, (sign, (splitSign s).1) ∈ signs ∧ s = sign ++ (splitSign s).2 := by
  have hminus : ([.char '-'], true) ∈ signs := by decide
  have hplus : ([.char '+'], false) ∈ signs := by decide
  have hnone : ([], false) ∈ signs := by decide
  unfold splitSign
  split
  · exact ⟨_, hminus, rfl⟩
  · exact ⟨_, hplus, rfl⟩
  · exact ⟨_, hnone, rfl⟩

/-- A spelling starts with a sign or a digit. -/
theorem SpellsInteger.exists_cons {s : Text} {n : Int} (h : SpellsInteger s n) :
    ∃ c rest, s = c :: rest ∧ (c = '+' ∨ c = '-' ∨ (Text.digit? c).isSome) := by
  obtain ⟨hsign, hdigits, -⟩ := h
  obtain ⟨c, rest, rfl, hc⟩ := hdigits.exists_cons
  simp only [signs, List.mem_cons, List.not_mem_nil, or_false, Prod.mk.injEq] at hsign
  rcases hsign with ⟨rfl, rfl⟩ | ⟨rfl, rfl⟩ | ⟨rfl, rfl⟩
  · exact ⟨c, rest, rfl, .inr (.inr hc)⟩
  · exact ⟨'+', c :: rest, rfl, .inl rfl⟩
  · exact ⟨'-', c :: rest, rfl, .inr (.inl rfl)⟩

/-! ## Size -/

/-- Every digit multiplies by ten. -/
theorem extend_lt (value : Nat) (digits : Text) :
    extend value digits < (value + 1) * 10 ^ digits.length := by
  induction digits generalizing value with
  | nil => simp [extend]
  | cons c digits ih =>
      have hd : (Text.digit? c).getD 0 < 10 := by
        cases hc : Text.digit? c with
        | none => decide
        | some d => exact Text.digit?_lt hc
      calc extend value (c :: digits)
          < (10 * value + (Text.digit? c).getD 0 + 1) * 10 ^ digits.length := ih _
        _ ≤ (value + 1) * 10 * 10 ^ digits.length := Nat.mul_le_mul_right _ (by omega)
        _ = (value + 1) * 10 ^ (c :: digits).length := by
          rw [List.length_cons, Nat.pow_succ', Nat.mul_assoc]

/-- An integer that has been read from digits can be written again. -/
theorem SpellsInteger.fits {s : Text} {n : Int} (h : SpellsInteger s n) : Number.fits n = true := by
  obtain ⟨-, -, hsize⟩ := h
  have habs : ∀ (negative : Bool) (m : Nat), (signed negative m).natAbs = m := by
    rintro (_ | _) m <;> simp [signed]
  refine decide_eq_true ?_
  rw [habs, Text.ofNat, List.length_map, Nat.length_toDigits_le_iff (by decide) (by decide)]
  refine Nat.lt_of_lt_of_le (extend_lt 0 _) ?_
  rw [Nat.zero_add, Nat.one_mul]
  exact Nat.pow_le_pow_right (by decide) hsize

/-- The reader accepts exactly the spellings of integers. -/
theorem readInteger?_eq_some {s : Text} {n : Int} :
    readInteger? s = some n ↔ SpellsInteger s n := by
  constructor
  · intro h
    obtain ⟨sign, hsign, hs⟩ := exists_sign s
    simp only [readInteger?] at h
    split at h
    · next hsize =>
        obtain ⟨m, hm, rfl⟩ := Option.map_eq_some_iff.1 h
        obtain ⟨digits, hdigits, rfl⟩ := (spellsDigits_of_go hm).resolve_right (by simp)
        rw [hdigits.filter_eq] at hsize
        have hspells := SpellsInteger.mk hsign hdigits hsize
        rwa [← hs] at hspells
    · cases h
  · rintro ⟨hsign, hdigits, hsize⟩
    rw [readInteger?, splitSign_append hsign hdigits]
    dsimp only
    rw [hdigits.filter_eq, if_pos hsize, readDigits?, hdigits.go_eq]
    rfl

end VerilogLayout.Number

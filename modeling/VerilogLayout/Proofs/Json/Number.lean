import VerilogLayout.Proofs.Json.Characters
import VerilogLayout.Proofs.Source.Trim

/-!
# Reading a number

`readNumber_of_spells` says that every spelling of a number is read as its value, whatever
follows, as long as it does not go on with a character of a number. Whole part, fraction and
exponent are longest runs of digits; each is found by itself, and the parts are put together once.
-/

namespace VerilogLayout

open Text (Stops stops_cons stops_nil stops_append)

namespace Number

/-- An ASCII digit is read as its distance from zero. -/
theorem digit?_of_isDigit {c : CodePoint} (h : c.isDigit = true) :
    Text.digit? c = some (c.toNat - 48) := by
  obtain ⟨hle, hlt⟩ := isDigit_iff.1 h
  show ((48 :: _ : List Nat).find? _).map _ = _
  rw [List.find?_cons_of_pos (by simp; omega)]
  rfl

/-- ASCII digits are digits of some script. -/
theorem isSome_digit? {s : Text} (h : ∀ c ∈ s, c.isDigit = true) :
    ∀ c ∈ s, (Text.digit? c).isSome = true :=
  fun c hc => by rw [digit?_of_isDigit (h c hc), Option.isSome_some]

/-- ASCII digits are read as the number they write. -/
theorem digitsValue_of_isDigit {digits : List Char} (h : ∀ c ∈ digits, c.isDigit = true) :
    digitsValue (digits.map .char) = Nat.ofDigitChars 10 digits 0 := by
  have hfold : ∀ n, (digits.map CodePoint.char).foldl
      (fun n c => 10 * n + (Text.digit? c).getD 0) n = Nat.ofDigitChars 10 digits n := by
    induction digits with
    | nil => exact fun n => rfl
    | cons c digits ih =>
      obtain ⟨hc, hdigits⟩ := List.forall_mem_cons.1 h
      intro n
      rw [List.map_cons, List.foldl_cons, ih hdigits, Nat.ofDigitChars_cons,
        digit?_of_isDigit (c := .char c) hc]
      rfl
  exact hfold 0

end Number

namespace Json

/-- A character with which a number can go on. -/
def continuesNumber (c : CodePoint) : Bool :=
  c.isDigit || c == '.' || c == 'e' || c == 'E'

/-- The digits of a number are digits. -/
theorem isDigits_toDigits (n : Nat) : IsDigits (Nat.toDigits 10 n) :=
  ⟨Nat.toDigits_ne_nil, fun _ hc => Nat.isDigit_of_mem_toDigits (by decide) (by decide) hc⟩

section Digits

variable {digits : List Char} (h : IsDigits digits)
include h

/-- The characters of digits are digits. -/
theorem IsDigits.isDigit_of_mem : ∀ c ∈ digits.map CodePoint.char, c.isDigit = true := by
  intro c hc
  obtain ⟨d, hd, rfl⟩ := List.mem_map.1 hc
  exact h.digit d hd

/-- There is one digit at least. -/
theorem IsDigits.isEmpty_eq_false : (digits.map CodePoint.char).isEmpty = false := by
  simpa using h.ne_nil

/-- Digits begin with a digit. -/
theorem IsDigits.append_ne_cons {rest after : Text} {c : CodePoint} (hc : c.isDigit = false) :
    digits.map CodePoint.char ++ rest ≠ c :: after := by
  intro heq
  obtain ⟨d, s, rfl⟩ := List.exists_cons_of_ne_nil h.ne_nil
  obtain ⟨rfl, -⟩ := List.cons.inj heq
  exact Bool.false_ne_true (hc.symm.trans (h.digit d List.mem_cons_self))

end Digits

/-- A positive number does not begin with a zero. -/
theorem exists_toDigits_cons {n : Nat} (h : 0 < n) :
    ∃ c digits, Nat.toDigits 10 n = c :: digits ∧ c ≠ '0' := by
  induction n using Nat.strongRecOn with
  | _ n ih =>
    rw [Nat.toDigits_eq_if (by decide)]
    split
    · next hlt =>
      refine ⟨_, _, rfl, ?_⟩
      interval_cases n <;> decide
    · obtain ⟨c, digits, hdigits, hc⟩ := ih (n / 10) (by omega) (by omega)
      exact ⟨c, digits ++ [(n % 10).digitChar], by rw [hdigits]; rfl, hc⟩

section Parts

variable {rest : Text}

/-- The whole part is found. -/
theorem wholePart_ofNat (n : Nat) (hrest : Stops CodePoint.isDigit rest) :
    wholePart (Text.ofNat n ++ rest) = Text.ofNat n := by
  have hrun : ((Text.ofNat n ++ rest).takeWhile CodePoint.isDigit) = Text.ofNat n :=
    Text.takeWhile_append (isDigits_toDigits n).isDigit_of_mem hrest
  obtain rfl | hpos := Nat.eq_zero_or_pos n
  · rfl
  · obtain ⟨c, digits, hdigits, hc⟩ := exists_toDigits_cons hpos
    rw [Text.ofNat, hdigits] at hrun ⊢
    rw [List.map_cons, List.cons_append, wholePart]
    · exact hrun
    · exact fun _ h => hc (CodePoint.char.inj (List.cons.inj h).1)

/-- The fraction is found. -/
theorem fractionPart_of_spells {fraction : Text} {digits : List Char}
    (h : SpellsFraction fraction digits)
    (hdigit : Stops CodePoint.isDigit rest) (hpoint : Stops (· == .char '.') rest) :
    fractionPart (fraction ++ rest) = fraction := by
  cases h with
  | absent =>
    rw [List.nil_append, fractionPart]
    rintro after rfl
    exact absurd (stops_cons.1 hpoint) (by decide)
  | digits h =>
    simp only [List.cons_append, fractionPart, Text.takeWhile_append h.isDigit_of_mem hdigit,
      h.isEmpty_eq_false]
    rfl

/-- The exponent is found. -/
theorem exponentPart_of_spells {exponent : Text} {power : Int} (h : SpellsExponent exponent power)
    (hrest : Stops continuesNumber rest) : exponentPart (exponent ++ rest) = exponent := by
  cases h with
  | absent =>
    cases rest with
    | nil => rfl
    | cons c rest =>
      have hmark : ¬ (c = 'e' ∨ c = 'E') := by
        have hstop := stops_cons.1 hrest
        rintro (rfl | rfl) <;> simp [continuesNumber] at hstop
      show (if c = 'e' ∨ c = 'E' then _ else []) = []
      rw [if_neg hmark]
  | @present mark sign digits negative hmark hsign h =>
    have hrun : (digits.map CodePoint.char ++ rest).takeWhile CodePoint.isDigit =
        digits.map CodePoint.char :=
      Text.takeWhile_append h.isDigit_of_mem fun c hc => by
        have hstop := hrest c hc
        simp only [continuesNumber, Bool.or_eq_false_iff] at hstop
        exact hstop.1.1.1
    have htake : ∀ sign : Text,
        (if ((digits.map CodePoint.char ++ rest).takeWhile CodePoint.isDigit).isEmpty then []
          else mark :: (sign ++ (digits.map CodePoint.char ++ rest).takeWhile CodePoint.isDigit)) =
        mark :: (sign ++ digits.map .char) := by
      intro sign
      rw [hrun, if_neg (by simpa using h.ne_nil)]
    simp only [exponentSigns, List.mem_cons, Prod.mk.injEq, List.not_mem_nil, or_false] at hsign
    rcases hsign with ⟨rfl, -⟩ | ⟨rfl, -⟩ | ⟨rfl, -⟩
    · show exponentPart (mark :: (digits.map .char ++ rest)) = _
      rw [exponentPart, if_pos hmark]
      · exact htake ""
      · exact fun _ => h.append_ne_cons rfl
      · exact fun _ => h.append_ne_cons rfl
    · show exponentPart (mark :: .char '+' :: (digits.map .char ++ rest)) = _
      rw [exponentPart, if_pos hmark]
      exact htake "+"
    · show exponentPart (mark :: .char '-' :: (digits.map .char ++ rest)) = _
      rw [exponentPart, if_pos hmark]
      exact htake "-"

end Parts

/-- An exponent is read as its value. -/
theorem readExponent?_of_spells {exponent : Text} {power : Int}
    (h : SpellsExponent exponent power) : Number.readExponent? exponent = some power := by
  cases h with
  | absent => rfl
  | @present mark sign digits negative hmark hsign h =>
    have hvalue := Number.digitsValue_of_isDigit h.digit
    have hall : (!(digits.map CodePoint.char).isEmpty &&
        (digits.map CodePoint.char).all fun d => (Text.digit? d).isSome) = true := by
      rw [Bool.and_eq_true]
      exact ⟨by simpa using h.ne_nil, List.all_eq_true.2 (Number.isSome_digit? h.isDigit_of_mem)⟩
    have hsplit : Number.splitSign (sign ++ digits.map .char) = (negative, digits.map .char) := by
      simp only [exponentSigns, List.mem_cons, Prod.mk.injEq, List.not_mem_nil, or_false] at hsign
      rcases hsign with ⟨rfl, rfl⟩ | ⟨rfl, rfl⟩ | ⟨rfl, rfl⟩
      · show Number.splitSign (digits.map .char) = _
        rw [Number.splitSign]
        · exact fun s heq => h.append_ne_cons rfl ((List.append_nil _).trans heq)
        · exact fun s heq => h.append_ne_cons rfl ((List.append_nil _).trans heq)
      · rfl
      · rfl
    rw [Number.readExponent?, if_pos hmark, hsplit]
    show (if _ then _ else _) = _
    rw [if_pos hall, hvalue]

/-- A number with a fraction or an exponent is read as the number nearest to it. -/
theorem readDecimal?_of_spells {negative : Bool} {n : Nat} {fraction exponent : Text}
    {digits : List Char} {power : Int} (hfraction : SpellsFraction fraction digits)
    (hexponent : SpellsExponent exponent power) :
    Number.readDecimal? negative (Text.ofNat n ++ fraction ++ exponent) =
      some (Number.ofDecimal negative (Nat.ofDigitChars 10 digits n) (power - digits.length)) := by
  have hexp := readExponent?_of_spells hexponent
  have hstart : Stops (fun c => (Text.digit? c).isSome) exponent := by
    cases hexponent with
    | absent => exact stops_nil
    | present hmark _ _ => rcases hmark with rfl | rfl <;> exact stops_cons.2 (by decide)
  have hwhole : ∀ c ∈ Text.ofNat n, (Text.digit? c).isSome = true :=
    Number.isSome_digit? (isDigits_toDigits n).isDigit_of_mem
  have hempty : (Text.ofNat n).isEmpty = false := (isDigits_toDigits n).isEmpty_eq_false
  have hmantissa : ∀ digits : List Char, (∀ c ∈ digits, c.isDigit = true) →
      Number.digitsValue (Text.ofNat n ++ digits.map .char) = Nat.ofDigitChars 10 digits n := by
    intro digits hdigits
    rw [Text.ofNat, ← List.map_append, Number.digitsValue_of_isDigit
      (List.forall_mem_append.2 ⟨(isDigits_toDigits n).digit, hdigits⟩), Nat.ofDigitChars_append,
      Nat.ofDigitChars_ten_toDigits]
  -- The reader takes a fraction only behind a point, so the two spellings take different branches.
  cases hfraction with
  | absent =>
    rw [List.append_nil]
    simp only [Number.readDecimal?, Text.takeWhile_append hwhole hstart,
      Text.dropWhile_append hwhole hstart]
    split
    · next after =>
      cases hexponent with
      | present hmark _ _ => exact absurd hmark (by decide)
    · have hvalue := hmantissa [] nofun
      simp only [List.map_nil, List.append_nil] at hvalue ⊢
      simp only [hempty, hexp, hvalue]
      rfl
  | digits h =>
    have hpoint : Stops (fun c => (Text.digit? c).isSome)
        (.char '.' :: (digits.map .char ++ exponent)) := stops_cons.2 (by decide)
    have hdigits := Number.isSome_digit? h.isDigit_of_mem
    simp only [List.append_assoc, List.cons_append, Number.readDecimal?,
      Text.takeWhile_append hwhole hpoint, Text.dropWhile_append hwhole hpoint,
      Text.takeWhile_append hdigits hstart, Text.dropWhile_append hdigits hstart, hempty, hexp,
      hmantissa digits h.digit, List.length_map]
    rfl

/-- A number is read part by part: a text that the three readers of parts cut into a whole part, a
fraction and an exponent is an integer if the last two are absent, a decimal if not. -/
theorem readNumber_parts {negative : Bool} {whole : List Char} {fraction exponent rest : Text}
    (hdigits : IsDigits whole)
    (hwhole : wholePart (whole.map CodePoint.char ++ (fraction ++ (exponent ++ rest))) =
      whole.map CodePoint.char)
    (hfraction : fractionPart (fraction ++ (exponent ++ rest)) = fraction)
    (hexponent : exponentPart (exponent ++ rest) = exponent) :
    (fraction = [] → exponent = [] → whole.length ≤ Number.maxDigits →
      readNumber (sign negative ++ (whole.map CodePoint.char ++ (fraction ++ (exponent ++ rest)))) =
        .ok (.int (Number.signed negative (Number.digitsValue (whole.map CodePoint.char))), rest)) ∧
      ∀ x, fraction ≠ [] ∨ exponent ≠ [] →
        Number.readDecimal? negative (whole.map CodePoint.char ++ fraction ++ exponent) = some x →
        readNumber
          (sign negative ++ (whole.map CodePoint.char ++ (fraction ++ (exponent ++ rest)))) =
          .ok (.float x, rest) := by
  have hread :
      readNumber (sign negative ++ (whole.map CodePoint.char ++ (fraction ++ (exponent ++ rest)))) =
      if !(fraction.isEmpty && exponent.isEmpty) then
        (Number.readDecimal? negative (whole.map CodePoint.char ++ fraction ++ exponent)).elim
          (.error (.fault ⟨.noValue, (sign negative ++
            (whole.map CodePoint.char ++ (fraction ++ (exponent ++ rest)))).length⟩))
          fun x => .ok (.float x, rest)
      else if (whole.map CodePoint.char).length ≤ Number.maxDigits then
        .ok (.int (Number.signed negative (Number.digitsValue (whole.map CodePoint.char))), rest)
      else
        .error (.limit (.digits (some (whole.map CodePoint.char).length))) := by
    cases negative with
    | true =>
      show readNumber
        (.char '-' :: (whole.map CodePoint.char ++ (fraction ++ (exponent ++ rest)))) = _
      simp only [readNumber, hwhole, hdigits.isEmpty_eq_false, List.drop_left, hfraction, hexponent]
      cases Number.readDecimal? true (whole.map CodePoint.char ++ fraction ++ exponent) <;> rfl
    | false =>
      show readNumber (whole.map CodePoint.char ++ (fraction ++ (exponent ++ rest))) = _
      -- The first character is a digit, so the reader sees no sign.
      have hminus : ∀ after, whole.map CodePoint.char ++ (fraction ++ (exponent ++ rest)) ≠
        .char '-' :: after := fun _ => hdigits.append_ne_cons rfl
      unfold readNumber
      split
      next negative body heq =>
      split at heq
      · next h => exact absurd h (hminus _)
      · obtain ⟨rfl, rfl⟩ := Prod.mk.inj heq
        simp only [hwhole, hdigits.isEmpty_eq_false, List.drop_left, hfraction, hexponent]
        cases Number.readDecimal? false (whole.map CodePoint.char ++ fraction ++ exponent) <;> rfl
  rw [hread]
  refine ⟨?_, fun x hsome hx => ?_⟩
  · rintro rfl rfl hsize
    rw [if_neg (by simp), if_pos (by rwa [List.length_map])]
  · rw [if_pos (by rcases hsome with h | h <;> simp [h]), hx, Option.elim_some]

/-- A text that stops before a class stops before any smaller one. -/
theorem stops_mono {p q : CodePoint → Bool} {s : Text} (hpq : ∀ c, q c = true → p c = true)
    (h : Stops p s) : Stops q s := by
  intro c hc
  by_contra hq
  exact absurd (hpq c (by simpa using hq)) (by simp [h c hc])

/-- The parts of a number are found whatever follows the number. -/
theorem parts_of_spells {n : Nat} {fraction exponent rest : Text} {digits : List Char}
    {power : Int}
    (hfraction : SpellsFraction fraction digits) (hexponent : SpellsExponent exponent power)
    (hrest : Stops continuesNumber rest) :
    wholePart (Text.ofNat n ++ (fraction ++ (exponent ++ rest))) = Text.ofNat n ∧
      fractionPart (fraction ++ (exponent ++ rest)) = fraction ∧
      exponentPart (exponent ++ rest) = exponent := by
  have hdigit : Stops CodePoint.isDigit rest := stops_mono (by simp [continuesNumber]; tauto) hrest
  have hpoint : Stops (· == .char '.') rest := stops_mono (by simp [continuesNumber]) hrest
  have hexponentDigit : Stops CodePoint.isDigit exponent ∧ Stops (· == .char '.') exponent := by
    cases hexponent with
    | absent => exact ⟨stops_nil, stops_nil⟩
    | present hmark _ _ =>
      rcases hmark with rfl | rfl <;> exact ⟨stops_cons.2 rfl, stops_cons.2 rfl⟩
  have hfractionDigit : Stops CodePoint.isDigit fraction := by
    cases hfraction with
    | absent => exact stops_nil
    | digits _ => exact stops_cons.2 rfl
  have hback := stops_append hexponentDigit.1 hdigit
  exact ⟨wholePart_ofNat n (stops_append hfractionDigit hback),
    fractionPart_of_spells hfraction hback (stops_append hexponentDigit.2 hpoint),
    exponentPart_of_spells hexponent hrest⟩

/-- Every spelling of a number is read as its value. -/
theorem readNumber_of_spells {s : Text} {value : Value} (h : SpellsNumber s value) {rest : Text}
    (hrest : Stops continuesNumber rest) : readNumber (s ++ rest) = .ok (value, rest) := by
  cases h with
  | @int negative n hsize =>
    obtain ⟨hwhole, hfraction, hexponent⟩ := @parts_of_spells n _ _ _ _ _ .absent .absent hrest
    have hparts := (@readNumber_parts negative _ _ _ _ (isDigits_toDigits n) hwhole hfraction
      hexponent).1 rfl rfl (by simpa [Text.ofNat] using hsize)
    rw [Number.digitsValue_of_isDigit (isDigits_toDigits n).digit,
      Nat.ofDigitChars_ten_toDigits] at hparts
    rw [List.append_assoc]
    exact hparts
  | @float negative n fraction exponent digits power hfraction hexponent hsome =>
    obtain ⟨hw, hf, he⟩ := @parts_of_spells n _ _ _ _ _ hfraction hexponent hrest
    simp only [List.append_assoc]
    exact (readNumber_parts (isDigits_toDigits n) hw hf he).2 _ hsome
      (readDecimal?_of_spells hfraction hexponent)

end Json
end VerilogLayout

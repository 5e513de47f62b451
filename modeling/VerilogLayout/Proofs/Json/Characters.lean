import Mathlib.Tactic.IntervalCases
import Mathlib.Tactic.SplitIfs
import VerilogLayout.Proofs.Json.Grammar

/-!
# Reading a string

`readString_of_spells` says that every spelling of a text between quotes is read as that text, and
what follows the closing quote is left over. The induction is on the spelling, each rule of which
is one step of the reader.
-/

namespace VerilogLayout

/-- The code point of the small form of a letter. -/
theorem toNat_toLower (c : CodePoint) :
    c.toLower.toNat = if 65 ≤ c.toNat ∧ c.toNat ≤ 90 then c.toNat + 32 else c.toNat := by
  cases c with
  | surrogate place =>
    rw [if_neg (by simp only [CodePoint.toNat]; omega)]
    rfl
  | char c =>
    show c.toLower.toNat = _
    unfold Char.toLower
    split
    · next h =>
      have hrange : 65 ≤ c.toNat ∧ c.toNat ≤ 90 := h
      rw [CodePoint.toNat_char, if_pos hrange]
      show (c.val + _).toNat = _
      rw [UInt32.toNat_add]
      show (c.toNat + 32) % _ = _
      omega
    · next h =>
      have hrange : ¬ (65 ≤ c.toNat ∧ c.toNat ≤ 90) := h
      rw [CodePoint.toNat_char, if_neg hrange]

/-- The digits are a range of code points. -/
theorem isDigit_iff {c : CodePoint} : c.isDigit = true ↔ 48 ≤ c.toNat ∧ c.toNat ≤ 57 := by
  cases c with
  | surrogate place =>
    refine iff_of_false Bool.false_ne_true ?_
    simp only [CodePoint.toNat]
    omega
  | char c =>
    simp only [CodePoint.isDigit, CodePoint.isIn_char, Char.isDigit, Bool.and_eq_true,
      decide_eq_true_eq]
    exact Iff.rfl

namespace Json

/-- A hexadecimal digit of either case is read as its value. -/
theorem hexDigit?_of_spells {c : CodePoint} {n : Nat} (h : SpellsHex c n) :
    hexDigit? c = some n := by
  obtain ⟨hlt, hlower⟩ := h
  have hcode : (Nat.digitChar n).toNat = _ :=
    (congrArg CodePoint.toNat hlower).symm.trans (toNat_toLower c)
  have hdigit : (Nat.digitChar n).toNat = if n < 10 then n + 48 else n + 87 := by
    interval_cases n <;> rfl
  have hsmall : (.char 'a' ≤ c ∧ c ≤ .char 'f') ↔ 97 ≤ c.toNat ∧ c.toNat ≤ 102 := Iff.rfl
  have hlarge : (.char 'A' ≤ c ∧ c ≤ .char 'F') ↔ 65 ≤ c.toNat ∧ c.toNat ≤ 70 := Iff.rfl
  rw [hdigit] at hcode
  -- A capital stands 32 below its small letter, everything else is its own small form.
  simp only [hexDigit?, isDigit_iff, hsmall, hlarge]
  split_ifs at hcode ⊢ <;> first | omega | (congr 1; omega)

/-- What is read as a value is a hexadecimal digit. -/
theorem spellsHex_of_hexDigit? {c : CodePoint} {n : Nat} (h : hexDigit? c = some n) :
    SpellsHex c n := by
  have hsmall : (.char 'a' ≤ c ∧ c ≤ .char 'f') ↔ 97 ≤ c.toNat ∧ c.toNat ≤ 102 := Iff.rfl
  have hlarge : (.char 'A' ≤ c ∧ c ≤ .char 'F') ↔ 65 ≤ c.toNat ∧ c.toNat ≤ 70 := Iff.rfl
  simp only [hexDigit?, isDigit_iff, hsmall, hlarge] at h
  rw [← CodePoint.ofNat_toNat c]
  generalize c.toNat = code at h
  -- Each of the three ranges is a handful of code points.
  split_ifs at h with hrange hrange hrange
  all_goals
    obtain ⟨hlow, hhigh⟩ := hrange
    obtain rfl := Option.some.inj h
    interval_cases code <;> exact ⟨by decide, by decide⟩

/-- Four hexadecimal digits are read as the code unit they write. -/
theorem codeUnit?_of_spells {digits : Text} {n : Nat} (h : SpellsUnit digits n) (rest : Text) :
    codeUnit? (digits ++ rest) = some (n, rest) := by
  obtain ⟨ha, hb, hc, hd⟩ := h
  simp [codeUnit?, hexDigit?_of_spells ha, hexDigit?_of_spells hb, hexDigit?_of_spells hc,
    hexDigit?_of_spells hd]

/-- What is read as a code unit is four hexadecimal digits. -/
theorem exists_of_codeUnit? {s rest : Text} {n : Nat} (h : codeUnit? s = some (n, rest)) :
    ∃ digits, SpellsUnit digits n ∧ s = digits ++ rest := by
  unfold codeUnit? at h
  split at h
  · next a b c d s =>
    simp only [Option.bind_eq_bind, Option.bind_eq_some_iff, Option.pure_def, Option.some.injEq,
      Prod.mk.injEq] at h
    obtain ⟨i, ha, j, hb, k, hc, l, hd, rfl, rfl⟩ := h
    exact ⟨[a, b, c, d], .mk (spellsHex_of_hexDigit? ha) (spellsHex_of_hexDigit? hb)
      (spellsHex_of_hexDigit? hc) (spellsHex_of_hexDigit? hd), rfl⟩
  · cases h

/-- A digit is no quotation mark. -/
theorem SpellsHex.ne_quote {c : CodePoint} {n : Nat} (h : SpellsHex c n) : c ≠ '"' := by
  rintro rfl
  have hnone : hexDigit? '"' = none := by decide
  cases hnone.symm.trans (hexDigit?_of_spells h)

/-- No quote stands in an escape. -/
theorem SpellsUnit.quote_not_mem {digits : Text} {n : Nat} (h : SpellsUnit digits n) :
    .char '"' ∉ .char '\\' :: .char 'u' :: digits := by
  obtain ⟨ha, hb, hc, hd⟩ := h
  simp [ha.ne_quote.symm, hb.ne_quote.symm, hc.ne_quote.symm, hd.ne_quote.symm]

/-- A code unit without the other half of a pair behind it takes nothing of what follows. -/
theorem joinSurrogates_toNat {c : CodePoint} {body : Text} (h : IsAlone c.toNat body)
    (rest : Text) :
    joinSurrogates c.toNat (body ++ .char '"' :: rest) = (c, body ++ .char '"' :: rest) := by
  unfold joinSurrogates
  rw [CodePoint.ofNat_toNat]
  dsimp only
  split
  · next after heq =>
    split
    · next low behind hunit =>
      refine if_neg fun hpair => ?_
      obtain ⟨hhigh, hlow, hrange⟩ : 0xd800 ≤ c.toNat ∧ c.toNat < 0xdc00 ∧
        0xdc00 ≤ low ∧ low < 0xe000 := ⟨hpair.1, hpair.2.1, hpair.2.2.1, hpair.2.2.2.1⟩
      obtain ⟨digits, hdigits, rfl⟩ := exists_of_codeUnit? hunit
      have hsplit : body ++ .char '"' :: rest =
        (.char '\\' :: .char 'u' :: digits) ++ behind := heq
      -- The quote that closes the string stands behind the escape.
      rcases List.append_eq_append_iff.1 hsplit with ⟨more, hescape, hbehind⟩ | ⟨more, hbody, -⟩
      · cases more with
        | nil =>
          rw [List.append_nil] at hescape
          exact h hhigh hlow digits low [] hdigits (by simp [← hescape]) hrange
        | cons d more =>
          obtain ⟨rfl, -⟩ := List.cons.inj hbehind
          refine hdigits.quote_not_mem ?_
          rw [hescape]
          exact List.mem_append_right _ List.mem_cons_self
      · exact h hhigh hlow digits low more hdigits hbody hrange
    · rfl
  · rfl

/-- A high surrogate with a low one behind it is the character of the pair. -/
theorem joinSurrogates_pair {c : CodePoint} {high low : Nat} {back rest : Text}
    (hback : SpellsUnit back low) (hhigh : 0xd800 ≤ high ∧ high < 0xdc00)
    (hlow : 0xdc00 ≤ low ∧ low < 0xe000)
    (hc : c.toNat = 0x10000 + (high - 0xd800) * 0x400 + (low - 0xdc00)) (hrest : rest ≠ []) :
    joinSurrogates high (.char '\\' :: .char 'u' :: (back ++ rest)) = (c, rest) := by
  have hpair : CodePoint.ofNat (0x10000 + (high - 0xd800) * 1024 + (low - 0xdc00)) = c := by
    rw [← hc, CodePoint.ofNat_toNat]
  simp only [joinSurrogates, codeUnit?_of_spells hback]
  rw [if_pos ⟨hhigh.1, hhigh.2, hlow.1, hlow.2, hrest⟩, hpair]

/-- A letter of the table is read as its character. -/
theorem escaped?_of_mem {e c : CodePoint} (h : (e, c) ∈ shortEscapes) :
    escaped? e = some c ∧ e ≠ 'u' := by
  simp only [shortEscapes, List.mem_cons, Prod.mk.injEq, List.not_mem_nil, or_false] at h
  rcases h with ⟨rfl, rfl⟩ | ⟨rfl, rfl⟩ | ⟨rfl, rfl⟩ | ⟨rfl, rfl⟩ | ⟨rfl, rfl⟩ | ⟨rfl, rfl⟩ |
    ⟨rfl, rfl⟩ | ⟨rfl, rfl⟩ <;> exact ⟨rfl, by decide⟩

section Step

variable {opening front : Text}

/-- A character that needs no escape is read as itself. -/
theorem readString_plain {c : CodePoint} (hquote : c ≠ '"') (hslash : c ≠ '\\')
    (hcontrol : 0x20 ≤ c.toNat) (s : Text) :
    readString opening front (c :: s) = readString opening (c :: front) s := by
  rw [readString]
  · rw [if_neg (by omega)]
  · exact hquote
  · exact fun h _ => hslash h
  · exact fun _ h _ => hslash h
  · exact fun _ _ h _ => hslash h

/-- A backslash and a letter are read as one character. -/
theorem readString_short {e c : CodePoint} (he : (e, c) ∈ shortEscapes) (s : Text) :
    readString opening front (.char '\\' :: e :: s) = readString opening (c :: front) s := by
  obtain ⟨hescaped, hunit⟩ := escaped?_of_mem he
  rw [readString]
  · rw [hescaped]
  · exact hunit

/-- A code unit is read with the low surrogate that belongs to it. -/
theorem readString_unit {n : Nat} {digits : Text} (hdigits : SpellsUnit digits n) {s : Text}
    (hs : s ≠ []) :
    readString opening front (.char '\\' :: .char 'u' :: (digits ++ s)) =
      readString opening ((joinSurrogates n s).1 :: front) (joinSurrogates n s).2 := by
  have hunit := codeUnit?_of_spells hdigits s
  rw [readString]
  split
  · next h =>
    rw [hunit] at h
    cases h
    rw [if_neg (by simpa using hs)]
  · next h =>
    rw [hunit] at h
    cases h

end Step

/-- What stands between the quotes is read as the text it spells. -/
theorem readString_body {opening body s : Text} (h : SpellsBody body s) (front rest : Text) :
    readString opening front (body ++ .char '"' :: rest) = .ok (front.reverse ++ s, rest) := by
  induction h generalizing front with
  | nil => simp [readString]
  | plain hquote hslash hcontrol _ ih =>
    rw [List.cons_append, readString_plain hquote hslash hcontrol, ih]
    simp
  | short he _ ih =>
    rw [List.cons_append, List.cons_append, readString_short he, ih]
    simp
  | unit hdigits halone _ ih =>
    rw [List.cons_append, List.cons_append, List.append_assoc,
      readString_unit hdigits (by simp), joinSurrogates_toNat halone, ih]
    simp
  | pair hfront hback hhigh hlow hc _ ih =>
    simp only [List.cons_append, List.append_assoc]
    rw [readString_unit hfront (by simp),
      joinSurrogates_pair hback hhigh hlow hc (by simp), ih]
    simp

/-- A string is read as the text it spells. -/
theorem readString_of_spells {string s : Text} (h : SpellsString string s) (opening rest : Text) :
    ∃ body, string ++ rest = .char '"' :: body ∧ readString opening [] body = .ok (s, rest) := by
  obtain ⟨hbody⟩ := h
  next body =>
  exact ⟨body ++ .char '"' :: rest, by simp, by simpa using readString_body hbody [] rest⟩

end Json
end VerilogLayout

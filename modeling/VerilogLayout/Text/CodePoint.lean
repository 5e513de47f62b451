/-!
# Code points

A `CodePoint` is a character or a surrogate, which is half of an encoded character and none by
itself. Encoded files hold no surrogates, but JSON can escape one, so a text may hold it. A
character stands for its code point wherever one is expected.
-/

namespace VerilogLayout

/-- A code point. -/
inductive CodePoint where
  | char (c : Char)
  /-- The surrogate that many places behind the first one. -/
  | surrogate (place : Fin 0x800)
deriving DecidableEq, Repr

instance : Inhabited CodePoint := ⟨.char default⟩

/-- A character is a code point. -/
instance : Coe Char CodePoint := ⟨.char⟩

namespace CodePoint

/-- The number of a code point. -/
def toNat : CodePoint → Nat
  | .char c => c.toNat
  | .surrogate place => 0xd800 + place

/-- The code point with a number, which is below `0x110000`. -/
def ofNat (n : Nat) : CodePoint :=
  if h : 0xd800 ≤ n ∧ n < 0xe000 then .surrogate ⟨n - 0xd800, by omega⟩ else .char (Char.ofNat n)

/-- Code points are ordered by their numbers. -/
instance : LE CodePoint := ⟨fun a b => a.toNat ≤ b.toNat⟩

instance (a b : CodePoint) : Decidable (a ≤ b) :=
  inferInstanceAs (Decidable (a.toNat ≤ b.toNat))

/-- The character that a code point is. -/
def char? : CodePoint → Option Char
  | .char c => some c
  | .surrogate _ => none

/-- `isSurrogate c` holds for a code point that is no character. -/
def isSurrogate : CodePoint → Bool
  | .char _ => false
  | .surrogate _ => true

/-- `isIn p c` holds for a character of the class `p`. -/
def isIn (p : Char → Bool) : CodePoint → Bool
  | .char c => p c
  | .surrogate _ => false

/-- `isDigit c` holds for the ASCII digits. -/
def isDigit : CodePoint → Bool :=
  isIn Char.isDigit

/-- `isAlpha c` holds for the ASCII letters. -/
def isAlpha : CodePoint → Bool :=
  isIn Char.isAlpha

/-- `isAlphanum c` holds for the ASCII letters and digits. -/
def isAlphanum : CodePoint → Bool :=
  isIn Char.isAlphanum

/-- The lower case of an ASCII letter; another code point stays. -/
def toLower : CodePoint → CodePoint
  | .char c => .char c.toLower
  | c => c

/-- A number stands for the code point that has it. -/
@[simp]
theorem ofNat_toNat (c : CodePoint) : ofNat c.toNat = c := by
  cases c with
  | char c =>
      have hvalid : c.toNat < 0xd800 ∨ 0xdfff < c.toNat ∧ c.toNat < 0x110000 := c.valid
      rw [ofNat, dif_neg (by simp only [toNat]; omega), toNat, Char.ofNat_toNat]
  | surrogate place =>
      have hrange : 0xd800 ≤ 0xd800 + place.val ∧ 0xd800 + place.val < 0xe000 := by omega
      rw [toNat, ofNat, dif_pos hrange]
      exact congrArg surrogate (Fin.ext (Nat.add_sub_cancel_left _ _))

/-- No two code points have one number. -/
theorem toNat_inj {a b : CodePoint} : a.toNat = b.toNat ↔ a = b :=
  ⟨fun h => by rw [← ofNat_toNat a, h, ofNat_toNat], congrArg toNat⟩

@[simp]
theorem toNat_char (c : Char) : (char c).toNat = c.toNat :=
  rfl

@[simp]
theorem isIn_char (p : Char → Bool) (c : Char) : isIn p (char c) = p c :=
  rfl

end CodePoint
end VerilogLayout

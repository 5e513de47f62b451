import VerilogLayout.Text.Basic

/-!
# Decimal digits

Unicode 14 has decimal digits in many scripts, each script's ten in a row from its zero.
`Text.digit? c` is the value of the digit `c`.
-/

namespace VerilogLayout.Text

/-- The zeros of the scripts, in the order of their code points. -/
def zeros : List Nat :=
  [48, 1632, 1776, 1984, 2406, 2534, 2662, 2790, 2918, 3046, 3174, 3302, 3430, 3558, 3664,
   3792, 3872, 4160, 4240, 6112, 6160, 6470, 6608, 6784, 6800, 6992, 7088, 7232, 7248, 42528,
   43216, 43264, 43472, 43504, 43600, 44016, 65296, 66720, 68912, 69734, 69872, 69942, 70096,
   70384, 70736, 70864, 71248, 71360, 71472, 71904, 72016, 72784, 73040, 73120, 92768, 92864,
   93008, 120782, 120792, 120802, 120812, 120822, 123200, 123632, 125264, 130032]

/-- The value of a decimal digit of any script. -/
def digit? (c : CodePoint) : Option Nat :=
  (zeros.find? fun base => base ≤ c.toNat && c.toNat < base + 10).map (c.toNat - ·)

/-- The value of an ASCII digit. -/
def asciiDigit? (c : CodePoint) : Option Nat :=
  if c.isDigit then some (c.toNat - 48) else none

/-- A digit is less than ten. -/
theorem digit?_lt {c : CodePoint} {n : Nat} (h : digit? c = some n) : n < 10 := by
  obtain ⟨base, hfind, rfl⟩ := Option.map_eq_some_iff.1 h
  have hrange := List.find?_some hfind
  simp only [Bool.and_eq_true, decide_eq_true_eq] at hrange
  omega

end VerilogLayout.Text

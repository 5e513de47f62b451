/-!
# Binary floating-point numbers, exactly

A finite `Float` is `mantissa · 2 ^ exponent` with a natural mantissa. Its digits in base ten are
computed in exact arithmetic: `Binary.rounded` gives a fixed number of significant digits, a tie
going to the even digit, and `Binary.shortest` the fewest digits that are read back as the same
number, the nearest of those.
-/

namespace VerilogLayout.Number

/-- The finite number `mantissa · 2 ^ exponent`. -/
structure Binary where
  mantissa : Nat
  exponent : Int
  /-- The next smaller number is only half as far away as the next larger one. -/
  atBinade : Bool
deriving DecidableEq, Repr

/-- What a `Float` is. -/
inductive Real where
  | undefined
  | infinite (negative : Bool)
  | finite (negative : Bool) (value : Binary)
deriving DecidableEq, Repr

/-- The bit in front of a fraction, which the fields of a `Float` leave out. -/
def implicitBit : Nat := 4503599627370496

/-- The fields of a `Float`. -/
def Real.ofFloat (x : Float) : Real :=
  let bits := x.toBits.toNat
  let negative := bits >>> 63 == 1
  let field : Nat := (bits >>> 52) % 2048
  let fraction := bits % implicitBit
  if field = 2047 then
    if fraction = 0 then .infinite negative else .undefined
  else if field = 0 then
    .finite negative ⟨fraction, -1074, false⟩
  else
    .finite negative ⟨fraction + implicitBit, Int.ofNat field - 1075, fraction == 0 && 1 < field⟩

/-- The number `0.d₁d₂… · 10 ^ point` with the digits of `digits`. -/
structure Decimal where
  digits : Nat
  point : Int
deriving DecidableEq, Repr

namespace Binary

/-- The numerator of the number as a fraction. -/
def numerator (b : Binary) : Nat :=
  b.mantissa * Nat.pow 2 b.exponent.toNat

/-- The denominator of the number as a fraction. -/
def denominator (b : Binary) : Nat :=
  Nat.pow 2 (-b.exponent).toNat

/-- The least `p` with the number below `10 ^ p`, for a number that is not zero. -/
def point (b : Binary) : Int :=
  let n := b.numerator
  let d := b.denominator
  if d ≤ n then
    ((Nat.toDigits 10 (n / d)).length : Int)
  else
    -((List.range 400).takeWhile fun k => n * Nat.pow 10 (k + 1) < d).length

/-- The whole part and the rest of the number on the grid of `count` digits: the rest is a
fraction of the grid's step. -/
def onGrid (b : Binary) (count : Nat) : Nat × Nat × Nat :=
  let places := (count : Int) - b.point
  let n := b.numerator * Nat.pow 10 places.toNat
  let d := b.denominator * Nat.pow 10 (-places).toNat
  (n / d, n % d, d)

/-- The number with `count` significant digits, a tie going to the even digit. -/
def rounded (b : Binary) (count : Nat) : Decimal :=
  if b.mantissa = 0 then
    ⟨0, 1⟩
  else
    let (whole, rest, step) := b.onGrid count
    let up := step < 2 * rest || (step == 2 * rest && whole % 2 == 1)
    let digits := if up then whole + 1 else whole
    ⟨digits, b.point - count + (Nat.toDigits 10 digits).length⟩

/-- `readsBack b count k` holds when `k` steps of the grid of `count` digits are nearer to the
number than to its neighbours; an end of that interval counts if the mantissa is even. -/
def readsBack (b : Binary) (count k : Nat) : Bool :=
  let places := (count : Int) - b.point
  let up := Nat.pow 10 places.toNat * Nat.pow 2 b.exponent.toNat
  let down := 4 * b.denominator * Nat.pow 10 (-places).toNat
  let low := (4 * b.mantissa - (if b.atBinade then 1 else 2)) * up
  let high := (4 * b.mantissa + 2) * up
  if b.mantissa % 2 = 0 then
    low ≤ k * down && k * down ≤ high
  else
    low < k * down && k * down < high

/-- The fewest digits that are read back as the number, the nearest of those. -/
def shortest (b : Binary) : Decimal :=
  if b.mantissa = 0 then
    ⟨0, 1⟩
  else
    let found := (List.range' 1 17).findSome? fun count =>
      let (whole, rest, step) := b.onGrid count
      let below := b.readsBack count whole
      let above := b.readsBack count (whole + 1)
      -- Both neighbours may read back: the nearer one is taken, of a tie the even one.
      let isLower := 2 * rest < step || (2 * rest == step && whole % 2 == 0)
      let near := if isLower then whole else whole + 1
      let pick := if below && above then some near
        else if below then some whole
        else if above then some (whole + 1)
        else none
      pick.map fun k => ⟨k, b.point - count + (Nat.toDigits 10 k).length⟩
    found.getD (b.rounded 17)

end Binary

end VerilogLayout.Number

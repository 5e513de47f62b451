import VerilogLayout.Number.Binary
import VerilogLayout.Number.Integer

/-!
# Floating-point numbers in text

`Spelling.write` writes a number by a `Spelling`, which fixes where positional writing ends and
whether a whole number keeps its point; `shown` and `brief` are the two spellings in use.
`readFloat?` reads a number in any of the spellings that settings accept.
-/

namespace VerilogLayout.Number

/-- How a floating-point number is written. -/
structure Spelling where
  /-- The number of digits; without it the fewest that are read back. -/
  significant : Option Nat
  /-- A number from `10 ^ positionalEnd` on is written with an exponent. -/
  positionalEnd : Int
  /-- A whole number in positional writing ends in `.0`. -/
  keepsPoint : Bool
deriving DecidableEq, Repr

/-- The spelling of a value in a message: the fewest digits that are read back, positional below
`10 ^ 16`. -/
def shown : Spelling :=
  ⟨none, 16, true⟩

/-- The spelling of a duration: six digits, positional below `10 ^ 6`. -/
def brief : Spelling :=
  ⟨some 6, 6, false⟩

namespace Spelling

/-- The digits of a decimal without the zeros at the end; zero keeps one. -/
def significantDigits (d : Decimal) : Text :=
  match Text.dropRightWhile (· = '0') (Text.ofNat d.digits) with
  | [] => "0"
  | digits => digits

/-- A decimal in positional writing. -/
def positional (keepsPoint : Bool) (digits : Text) (point : Int) : Text :=
  if point ≤ 0 then
    "0." ++ List.replicate (-point).toNat (CodePoint.char '0') ++ digits
  else if digits.length ≤ point.toNat then
    digits ++ List.replicate (point.toNat - digits.length) (CodePoint.char '0') ++
      (if keepsPoint then ".0" else "")
  else
    digits.take point.toNat ++ "." ++ digits.drop point.toNat

/-- A decimal with an exponent, which has a sign and at least two digits. -/
def scientific (digits : Text) (point : Int) : Text :=
  let exponent := point - 1
  let size := Text.ofNat exponent.natAbs
  digits.take 1 ++ (if digits.length = 1 then [] else .char '.' :: digits.drop 1) ++
    (if exponent < 0 then "e-" else "e+") ++
      List.replicate (2 - size.length) (CodePoint.char '0') ++ size

/-- The text of a number. -/
def write (spelling : Spelling) (x : Float) : Text :=
  match Real.ofFloat x with
  | .undefined => "nan"
  | .infinite negative => if negative then "-inf" else "inf"
  | .finite negative value =>
      let decimal :=
        match spelling.significant with
        | none => value.shortest
        | some count => value.rounded count
      let digits := significantDigits decimal
      let body :=
        if -4 < decimal.point ∧ decimal.point ≤ spelling.positionalEnd then
          positional spelling.keepsPoint digits decimal.point
        else
          scientific digits decimal.point
      if negative then '-' :: body else body

end Spelling

/-- The `Float` nearest to `mantissa · 10 ^ exponent`. -/
def ofDecimal (negative : Bool) (mantissa : Nat) (exponent : Int) : Float :=
  let size := ((Nat.toDigits 10 mantissa).length : Int) + exponent
  let magnitude :=
    if mantissa = 0 ∨ size < -330 then 0.0
    else if 310 < size then 1.0 / 0.0
    else Float.ofScientific mantissa (exponent < 0) exponent.natAbs
  if negative then -magnitude else magnitude

/-- The `Float` nearest to an integer, if the integer is not too large. -/
def ofInt? (n : Int) : Option Float :=
  let x := ofDecimal (n < 0) n.natAbs 0
  match Real.ofFloat x with
  | .finite _ _ => some x
  | _ => none

/-- The text without its underscores, each of which must stand between two digits. -/
def dropUnderscores? (s : Text) : Option Text :=
  go false s
where
  /-- `afterDigit` tells whether the character before was a digit. -/
  go (afterDigit : Bool) : Text → Option Text
    | [] => some []
    | '_' :: c :: s =>
        if afterDigit && (Text.digit? c).isSome then (go true s).map (c :: ·) else none
    | '_' :: [] => none
    | c :: s => (go (Text.digit? c).isSome s).map (c :: ·)

/-- The value of digits of any script. -/
def digitsValue (s : Text) : Nat :=
  s.foldl (fun n c => 10 * n + (Text.digit? c).getD 0) 0

/-- The exponent part of a number: empty, or `e` and an integer. -/
def readExponent? : Text → Option Int
  | [] => some 0
  | c :: s =>
      if c = 'e' ∨ c = 'E' then
        let (negative, body) := splitSign s
        if !body.isEmpty && body.all (fun d => (Text.digit? d).isSome) then
          some (signed negative (digitsValue body))
        else
          none
      else
        none

/-- A number without sign: digits, a fraction and an exponent. -/
def readDecimal? (negative : Bool) (s : Text) : Option Float := do
  let isDigit (c : CodePoint) : Bool := (Text.digit? c).isSome
  let whole := s.takeWhile isDigit
  let rest := s.dropWhile isDigit
  let (fraction, rest) :=
    match rest with
    | '.' :: after => (after.takeWhile isDigit, after.dropWhile isDigit)
    | _ => ([], rest)
  if whole.isEmpty && fraction.isEmpty then
    none
  else
    let exponent ← readExponent? rest
    pure (ofDecimal negative (digitsValue (whole ++ fraction)) (exponent - fraction.length))

/-- The number that a text writes: white space around it is ignored, digits may be of any script,
and `inf`, `infinity` and `nan` are numbers in any case. -/
def readFloat? (s : Text) : Option Float := do
  let body ← dropUnderscores? (Text.trimWhile isSpace s)
  let (negative, body) := splitSign body
  let name := body.map CodePoint.toLower
  if name = ("inf" : Text) ∨ name = ("infinity" : Text) then
    pure (if negative then -(1.0 / 0.0) else 1.0 / 0.0)
  else if name = ("nan" : Text) then
    pure (0.0 / 0.0)
  else
    readDecimal? negative body

end VerilogLayout.Number

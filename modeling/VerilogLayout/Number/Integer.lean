import VerilogLayout.Text.Blank
import VerilogLayout.Text.Digit

/-!
# Integers from text

An integer is written with an optional sign and digits, which single underscores may group. Two
readers share this grammar: `readInteger?` takes the decimal digits of any script and refuses
more than `maxDigits` of them, `readIndex?` takes ASCII digits and a fraction that is zero.
-/

namespace VerilogLayout.Number

/-- The longest run of digits that is read as one integer. -/
def maxDigits : Nat := 4300

/-- The value of a run of digits; an underscore may stand between two digits. -/
def readDigits? (digit : CodePoint → Option Nat) (s : Text) : Option Nat :=
  go 0 false s
where
  /-- `afterDigit` tells whether the character before was a digit. -/
  go (value : Nat) (afterDigit : Bool) : Text → Option Nat
    | [] => if afterDigit then some value else none
    | c :: s =>
        if c = '_' then
          if afterDigit then go value false s else none
        else
          match digit c with
          | some d => go (10 * value + d) true s
          | none => none

/-- A sign and what follows it; without a sign the number is not negative. -/
def splitSign : Text → Bool × Text
  | '-' :: s => (true, s)
  | '+' :: s => (false, s)
  | s => (false, s)

/-- The integer with the given sign and absolute value. -/
def signed (negative : Bool) (n : Nat) : Int :=
  if negative then -(n : Int) else n

/-- The integer that a trimmed text writes with digits of any script. -/
def readInteger? (s : Text) : Option Int :=
  let (negative, body) := splitSign s
  if (body.filter (· ≠ .char '_')).length ≤ maxDigits then
    (readDigits? Text.digit? body).map (signed negative)
  else
    none

/-- `isSpace c` holds for white space, the information separators left out. -/
def isSpace (c : CodePoint) : Bool :=
  Text.isBlank c && !(28 ≤ c.toNat && c.toNat ≤ 31)

/-- The text without a fraction that consists of one or more zeros. -/
def dropZeroFraction (s : Text) : Option Text :=
  match s.dropWhile (· ≠ .char '.') with
  | [] => some s
  | _ :: fraction =>
      if !fraction.isEmpty && fraction.all (· = '0') then
        some (s.takeWhile (· ≠ '.'))
      else
        none

/-- The digits without the zeros in front, which an underscore must not follow; of zeros alone one
is kept. -/
def dropLeadingZeros? (s : Text) : Option Text :=
  match s.dropWhile (· = .char '0') with
  | [] => some (s.take 1)
  | '_' :: rest => if s.head? = some (.char '0') then none else some ('_' :: rest)
  | rest => some rest

/-- The integer that a text writes with ASCII digits, blanks around it and a zero fraction
ignored. -/
def readIndex? (s : Text) : Option Int := do
  let whole ← dropZeroFraction (Text.trimWhile isSpace s)
  let (negative, body) := splitSign whole
  let n ← readDigits? Text.asciiDigit? (← dropLeadingZeros? body)
  pure (signed negative n)

end VerilogLayout.Number

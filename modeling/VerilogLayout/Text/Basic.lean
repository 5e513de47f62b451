import VerilogLayout.Text.CodePoint

/-!
# Text

A `Text` is a list of code points, so a length, a column and a position all count code points.
The functions here search, cut and pad texts; the character classes they are used with have
modules of their own. Cutting at separators and putting them back between the parts are core's
`List.splitOn` and `List.intercalate`.
-/

namespace VerilogLayout

/-- A text is the list of its code points. -/
abbrev Text := List CodePoint

/-- A literal stands for the text of its characters. -/
instance : Coe String Text := ⟨fun s => s.toList.map .char⟩

namespace Text

/-- What is said of the characters of a text is decided along the text. -/
instance (p : CodePoint → Prop) [DecidablePred p] (text : Text) : Decidable (∀ c ∈ text, p c) :=
  List.decidableBAll p text

/-- The string of a text, if there are no surrogates among its code points. -/
def string? (s : Text) : Option String :=
  (s.mapM CodePoint.char?).map String.ofList

/-- `spaces n` is a run of `n` spaces. -/
def spaces (n : Nat) : Text :=
  List.replicate n ' '

/-- `startsWith s t` holds when `s` begins with `t`. -/
def startsWith (s t : Text) : Bool :=
  t.isPrefixOf s

/-- `endsWith s t` holds when `s` ends with `t`. -/
def endsWith (s t : Text) : Bool :=
  t.isSuffixOf s

/-- The text without its last character. -/
def dropLast (s : Text) : Text :=
  List.dropLast s

/-- What `dropWhile` leaves at the right end. -/
def dropRightWhile (p : CodePoint → Bool) (s : Text) : Text :=
  (s.reverse.dropWhile p).reverse

/-- Both ends without the characters in the class `p`. -/
def trimWhile (p : CodePoint → Bool) (s : Text) : Text :=
  dropRightWhile p (s.dropWhile p)

/-- The number of characters before the first occurrence of `t` in `s`. -/
def find? (t : Text) : Text → Option Nat
  | [] => if t.isEmpty then some 0 else none
  | c :: s => if startsWith (c :: s) t then some 0 else (find? t s).map (· + 1)

/-- The number of characters before the last occurrence of `t` in `s`. -/
def findLast? (t : Text) : Text → Option Nat
  | [] => if t.isEmpty then some 0 else none
  | c :: s =>
      match findLast? t s with
      | some n => some (n + 1)
      | none => if startsWith (c :: s) t then some 0 else none

/-- `includes s t` holds when `t` occurs somewhere in `s`. -/
def includes (s t : Text) : Bool :=
  (find? t s).isSome

/-- The part of `s` before the first occurrence of `t`, or all of `s`. -/
def before (t s : Text) : Text :=
  match find? t s with
  | some n => s.take n
  | none => s

/-- The part after the last `separator`, or the whole text. -/
def afterLast (separator : CodePoint) (s : Text) : Text :=
  (s.reverse.takeWhile (· ≠ separator)).reverse

/-- Every occurrence of `old`, taken from the left without overlap, becomes `new`. -/
def replace (old new : Text) (s : Text) : Text :=
  if old.isEmpty then s else go s.length s
where
  /-- The fuel bounds the characters that are left. -/
  go : Nat → Text → Text
    | _, [] => []
    | 0, s => s
    | fuel + 1, c :: s =>
        if startsWith (c :: s) old then
          new ++ go fuel ((c :: s).drop old.length)
        else
          c :: go fuel s

/-- Spaces in front, up to `width` characters. -/
def padLeft (width : Nat) (s : Text) : Text :=
  spaces (width - s.length) ++ s

/-- Spaces behind, up to `width` characters. -/
def padRight (width : Nat) (s : Text) : Text :=
  s ++ spaces (width - s.length)

/-- The lower case of the letters whose lower case is an ASCII letter, the Kelvin sign included. -/
def lower (s : Text) : Text :=
  s.map fun (c : CodePoint) => if c = '\u212a' then 'k' else c.toLower

/-- The decimal digits of a number. -/
def ofNat (n : Nat) : Text :=
  (Nat.toDigits 10 n).map .char

/-- The decimal digits of a number with zeros in front, up to `width` characters. -/
def padNat (width n : Nat) : Text :=
  List.replicate (width - (ofNat n).length) (CodePoint.char '0') ++ ofNat n

/-- The decimal digits of an integer, with a sign if it is negative. -/
def ofInt : Int → Text
  | .ofNat n => ofNat n
  | .negSucc n => '-' :: ofNat (n + 1)

/-- Texts in the order of their code points. -/
def le : Text → Text → Bool
  | [], _ => true
  | _ :: _, [] => false
  | a :: s, b :: t => if a = b then le s t else a.toNat ≤ b.toNat

end Text
end VerilogLayout

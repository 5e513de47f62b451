import VerilogLayout.Data.Value
import VerilogLayout.Text.Utf8

/-!
# JSON

`Json.read?` reads one value and says of the first fault what was expected and how much of the
text was left there, from which `Json.Fault.message` finds line and column. Integers and
floating-point numbers stay apart, `NaN` and the infinities are numbers, and the last value of a
repeated key counts. Every open bracket takes its room on the stack, and an integer may have no more
than `Number.maxDigits` digits. `Json.write` writes a value on one line.
-/

namespace VerilogLayout.Json

/-- What is wrong with a text that is no JSON. -/
inductive Problem where
  | byteOrderMark
  | noValue
  | noName
  | noColon
  | noComma
  | extraData
  | openString
  | controlCharacter
  | badEscape
  | badCodeUnit
deriving DecidableEq, Repr

namespace Problem

/-- The problem in words. -/
def message : Problem → Text
  | .byteOrderMark => "Unexpected UTF-8 BOM (decode using utf-8-sig)"
  | .noValue => "Expecting value"
  | .noName => "Expecting property name enclosed in double quotes"
  | .noColon => "Expecting ':' delimiter"
  | .noComma => "Expecting ',' delimiter"
  | .extraData => "Extra data"
  | .openString => "Unterminated string starting at"
  | .controlCharacter => "Invalid control character at"
  | .badEscape => "Invalid \\escape"
  | .badCodeUnit => "Invalid \\uXXXX escape"

end Problem

/-- A problem and the number of characters from there to the end of the text. -/
structure Fault where
  problem : Problem
  remaining : Nat
deriving DecidableEq, Repr

namespace Fault

/-- The message of a fault in the text `source`. -/
def message (fault : Fault) (source : Text) : Text :=
  let position := source.length - fault.remaining
  let front := source.take position
  let line := front.count (.char '\n') + 1
  let column := (Text.afterLast '\n' front).length + 1
  fault.problem.message ++ ": line " ++ Text.ofNat line ++ " column " ++ Text.ofNat column ++
    " (char " ++ Text.ofNat position ++ ")"

end Fault

/-- `isSpace c` holds for the white space of JSON. -/
def isSpace (c : CodePoint) : Bool :=
  c = ' ' || c = '\t' || c = '\n' || c = '\r'

/-- What follows the white space. -/
def skipSpace (s : Text) : Text :=
  s.dropWhile isSpace

/-- The value of a hexadecimal digit. -/
def hexDigit? (c : CodePoint) : Option Nat :=
  if c.isDigit then some (c.toNat - 48)
  else if 'a' ≤ c ∧ c ≤ 'f' then some (c.toNat - 87)
  else if 'A' ≤ c ∧ c ≤ 'F' then some (c.toNat - 55)
  else none

/-- The code unit that four hexadecimal digits write, and what follows them. -/
def codeUnit? : Text → Option (Nat × Text)
  | a :: b :: c :: d :: s => do
      let a ← hexDigit? a
      let b ← hexDigit? b
      let c ← hexDigit? c
      let d ← hexDigit? d
      pure (((a * 16 + b) * 16 + c) * 16 + d, s)
  | _ => none

/-- The character that a single escaped letter stands for. -/
def escaped? : CodePoint → Option CodePoint
  | '"' => some '"'
  | '\\' => some '\\'
  | '/' => some '/'
  | 'b' => some '\x08'
  | 'f' => some '\x0c'
  | 'n' => some '\n'
  | 'r' => some '\r'
  | 't' => some '\t'
  | _ => none

/-- The code point of a code unit, and what follows it: a high surrogate takes the low surrogate
behind it along. -/
def joinSurrogates (unit : Nat) (s : Text) : CodePoint × Text :=
  let alone := (CodePoint.ofNat unit, s)
  match s with
  | '\\' :: 'u' :: after =>
      match codeUnit? after with
      | some (low, rest) =>
          if 0xd800 ≤ unit ∧ unit < 0xdc00 ∧ 0xdc00 ≤ low ∧ low < 0xe000 ∧ rest ≠ [] then
            (CodePoint.ofNat (0x10000 + (unit - 0xd800) * 1024 + (low - 0xdc00)), rest)
          else
            alone
      | none => alone
  | _ => alone

/-- What follows a code unit is shorter. -/
theorem length_lt_of_codeUnit? {s rest : Text} {unit : Nat} (h : codeUnit? s = some (unit, rest)) :
    rest.length < s.length := by
  unfold codeUnit? at h
  split at h
  · next a b c d rest' =>
    simp only [Option.bind_eq_bind, Option.bind_eq_some_iff, Option.pure_def,
      Option.some.injEq, Prod.mk.injEq] at h
    obtain ⟨_, _, _, _, _, _, _, _, _, rfl⟩ := h
    simp only [List.length_cons]
    omega
  · simp at h

/-- A surrogate takes nothing from what follows but another one. -/
theorem length_joinSurrogates_le (unit : Nat) (s : Text) :
    (joinSurrogates unit s).2.length ≤ s.length := by
  unfold joinSurrogates
  dsimp only
  split
  · split
    · next h =>
      split
      · have hlow := length_lt_of_codeUnit? h
        simp only [List.length_cons]
        omega
      · exact Nat.le_refl _
    · exact Nat.le_refl _
  · exact Nat.le_refl _

/-- The string whose characters start at `s`, and what follows its closing quote. `opening` is the
text from the opening quote on, and `front` the reversed part that is read. -/
def readString (opening front s : Text) : Except (ReadError Fault) (Text × Text) :=
  match s with
  | [] => .error (.fault ⟨.openString, opening.length⟩)
  | '"' :: s => .ok (front.reverse, s)
  | ['\\'] => .error (.fault ⟨.openString, opening.length⟩)
  | '\\' :: 'u' :: after =>
      match _hunit : codeUnit? after with
      | some (unit, rest) =>
          -- A code unit at the very end of the text counts as incomplete.
          if rest.isEmpty then
            .error (.fault ⟨.badCodeUnit, after.length + 1⟩)
          else
            let joined := joinSurrogates unit rest
            readString opening (joined.1 :: front) joined.2
      | none => .error (.fault ⟨.badCodeUnit, after.length + 1⟩)
  | '\\' :: e :: after =>
      match escaped? e with
      | some c => readString opening (c :: front) after
      | none => .error (.fault ⟨.badEscape, after.length + 2⟩)
  | c :: s =>
      if c.toNat < 0x20 then
        .error (.fault ⟨.controlCharacter, s.length + 1⟩)
      else
        readString opening (c :: front) s
termination_by s.length
decreasing_by
  · have hunit := length_lt_of_codeUnit? _hunit
    have hjoined := length_joinSurrogates_le unit rest
    simp only [List.length_cons]
    omega
  · simp only [List.length_cons]; omega
  · simp

/-- The digits of an exponent with its mark and sign, if there is one in front. -/
def exponentPart (s : Text) : Text :=
  match s with
  | c :: after =>
      if c = 'e' ∨ c = 'E' then
        let sign : Text :=
          match after with
          | '+' :: _ => "+"
          | '-' :: _ => "-"
          | _ => ""
        let digits := (after.drop sign.length).takeWhile CodePoint.isDigit
        if digits.isEmpty then [] else c :: (sign ++ digits)
      else
        []
  | [] => []

/-- The digits of a fraction with its point, if there is one in front. -/
def fractionPart : Text → Text
  | '.' :: after =>
      let digits := after.takeWhile CodePoint.isDigit
      if digits.isEmpty then [] else '.' :: digits
  | _ => []

/-- The whole part of a number: a zero, or digits that start with another digit. -/
def wholePart : Text → Text
  | '0' :: _ => ['0']
  | s => s.takeWhile CodePoint.isDigit

/-- The number in front of a text, and what follows it. -/
def readNumber (s : Text) : Except (ReadError Fault) (Value × Text) :=
  let (negative, body) :=
    match s with
    | '-' :: after => (true, after)
    | _ => (false, s)
  let whole := wholePart body
  if whole.isEmpty then
    .error (.fault ⟨.noValue, s.length⟩)
  else
    let rest := body.drop whole.length
    let fraction := fractionPart rest
    let rest := rest.drop fraction.length
    let exponent := exponentPart rest
    let rest := rest.drop exponent.length
    if !(fraction.isEmpty && exponent.isEmpty) then
      match Number.readDecimal? negative (whole ++ fraction ++ exponent) with
      | some x => .ok (.float x, rest)
      | none => .error (.fault ⟨.noValue, s.length⟩)
    else if whole.length ≤ Number.maxDigits then
      .ok (.int (Number.signed negative (Number.digitsValue whole)), rest)
    else
      .error (.limit (.digits (some whole.length)))

/-- The literals that are no numbers by their digits. -/
def literals : List (Text × Value) :=
  [("null", .null), ("true", .bool true), ("false", .bool false), ("NaN", .float (0.0 / 0.0)),
    ("Infinity", .float (1.0 / 0.0)), ("-Infinity", .float (-(1.0 / 0.0)))]

/-- The literal or number in front of a text, and what follows it. -/
def readScalar (s : Text) : Except (ReadError Fault) (Value × Text) :=
  match literals.find? fun literal => Text.startsWith s literal.1 with
  | some (name, value) => .ok (value, s.drop name.length)
  | none => readNumber s

/-- What is being done where an object is read. -/
def decodingObject : Text := "decoding a JSON object from a unicode string"

/-- What is being done where an array is read. -/
def decodingArray : Text := "decoding a JSON array from a unicode string"

mutual
/-- The value in front of a text, and what follows it. Up to `room` brackets may be open at once,
and the fuel bounds the calls. -/
def readValue (room : Nat) : (fuel : Nat) → Text → Except (ReadError Fault) (Value × Text)
  | 0, s => .error (.fault ⟨.noValue, s.length⟩)
  | fuel + 1, s =>
      match s with
      | '"' :: after =>
          (readString s [] after).map fun (text, rest) => (.text text, rest)
      | '\x7b' :: after =>
          ReadError.entering decodingObject 1 room fun room =>
            match skipSpace after with
            | '\x7d' :: rest => .ok (.table [], rest)
            | rest =>
                (readEntries room fuel rest).map fun (entries, rest) =>
                  (.table (Table.ofEntries entries), rest)
      | '[' :: after =>
          ReadError.entering decodingArray 1 room fun room =>
            match skipSpace after with
            | ']' :: rest => .ok (.list [], rest)
            | rest => (readItems room fuel rest).map fun (items, rest) => (.list items, rest)
      | _ => readScalar s

/-- The entries of an object from the first name on, and what follows the closing brace. -/
def readEntries (room : Nat) :
    (fuel : Nat) → Text → Except (ReadError Fault) (List (Text × Value) × Text)
  | 0, s => .error (.fault ⟨.noName, s.length⟩)
  | fuel + 1, s =>
      match s with
      | '"' :: after => do
          let (name, rest) ← readString s [] after
          match skipSpace rest with
          | ':' :: rest => do
              let (value, rest) ← readValue room fuel (skipSpace rest)
              match skipSpace rest with
              | '\x7d' :: rest => .ok ([(name, value)], rest)
              | ',' :: rest => do
                  let (entries, rest) ← readEntries room fuel (skipSpace rest)
                  .ok ((name, value) :: entries, rest)
              | rest => .error (.fault ⟨.noComma, rest.length⟩)
          | rest => .error (.fault ⟨.noColon, rest.length⟩)
      | _ => .error (.fault ⟨.noName, s.length⟩)

/-- The items of an array from the first one on, and what follows the closing bracket. -/
def readItems (room : Nat) : (fuel : Nat) → Text → Except (ReadError Fault) (List Value × Text)
  | 0, s => .error (.fault ⟨.noValue, s.length⟩)
  | fuel + 1, s => do
      let (value, rest) ← readValue room fuel s
      match skipSpace rest with
      | ']' :: rest => .ok ([value], rest)
      | ',' :: rest => do
          let (items, rest) ← readItems room fuel (skipSpace rest)
          .ok (value :: items, rest)
      | rest => .error (.fault ⟨.noComma, rest.length⟩)
end

/-- The value that a text holds, with nothing but white space around it. Up to `room` brackets may
be open at once. -/
def read? (room : Nat) (s : Text) : Except (ReadError Fault) Value :=
  match s with
  | '\ufeff' :: _ => .error (.fault ⟨.byteOrderMark, s.length⟩)
  | _ => do
      let (value, rest) ← readValue room (2 * s.length + 2) (skipSpace s)
      let rest := skipSpace rest
      if rest.isEmpty then .ok value else .error (.fault ⟨.extraData, rest.length⟩)

/-- How a character is written inside a string. -/
def escapeChar (c : CodePoint) : Text :=
  if c = '"' then "\\\""
  else if c = '\\' then "\\\\"
  else if c = '\n' then "\\n"
  else if c.toNat < 0x20 then "\\u" ++ Text.hexDigits 4 c.toNat
  else [c]

/-- A text as a string. -/
def writeString (s : Text) : Text :=
  "\"" ++ s.flatMap escapeChar ++ "\""

/-- A number as JSON, with the names of those that have no digits. -/
def writeFloat (x : Float) : Text :=
  match Number.Real.ofFloat x with
  | .undefined => "NaN"
  | .infinite negative => if negative then "-Infinity" else "Infinity"
  | .finite _ _ => Number.shown.write x

mutual
/-- A value on one line. -/
def write : Value → Text
  | .null => "null"
  | .bool b => if b then "true" else "false"
  | .int n => Text.ofInt n
  | .float x => writeFloat x
  | .text s => writeString s
  | .moment m => writeString m.plain
  | .list items => "[" ++ List.intercalate ", " (writeItems items) ++ "]"
  | .table entries => "\x7b" ++ List.intercalate ", " (writeEntries entries) ++ "\x7d"

/-- The items of an array. -/
def writeItems : List Value → List Text
  | [] => []
  | item :: items => write item :: writeItems items

/-- The entries of an object. -/
def writeEntries : List (Text × Value) → List Text
  | [] => []
  | (key, value) :: entries => (writeString key ++ ": " ++ write value) :: writeEntries entries
end

end VerilogLayout.Json

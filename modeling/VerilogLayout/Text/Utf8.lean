import VerilogLayout.Text.Quoted

/-!
# UTF-8

`Text.ofUtf8?` decodes bytes and says of the first invalid sequence where it stands and what is
wrong with it. The second byte of a sequence decides early: an overlong form, a surrogate and a
number past the last code point are refused there. `Text.toUtf8?` is the other direction, which
fails on a surrogate. In the name of a file a surrogate may stand for a byte that is no UTF-8.
-/

namespace VerilogLayout

/-- The bytes of a file. -/
abbrev Bytes := List UInt8

/-- What is wrong with a byte sequence. -/
inductive Utf8Problem where
  | badStart
  | badContinuation
  | truncated
deriving DecidableEq, Repr

/-- An invalid sequence: its first bytes, where it starts and what is wrong with it. -/
structure Utf8Error where
  problem : Utf8Problem
  position : Nat
  bytes : Bytes
deriving DecidableEq, Repr

namespace Utf8Problem

/-- The problem in words. -/
def message : Utf8Problem → Text
  | .badStart => "invalid start byte"
  | .badContinuation => "invalid continuation byte"
  | .truncated => "unexpected end of data"

end Utf8Problem

namespace Utf8Error

/-- The message of a decoding error. -/
def message (e : Utf8Error) : Text :=
  let place :=
    match e.bytes with
    | [b] => "byte 0x" ++ Text.hexDigits 2 b.toNat ++ " in position " ++ Text.ofNat e.position
    | bytes =>
        "bytes in position " ++ Text.ofNat e.position ++ "-" ++
          Text.ofNat (e.position + bytes.length - 1)
  "'utf-8' codec can't decode " ++ place ++ ": " ++ e.problem.message

end Utf8Error

/-- The first surrogates of a text, which no bytes encode: where they start, and all that stand
there in a row. -/
structure SurrogateError where
  position : Nat
  surrogates : Text
deriving DecidableEq, Repr

namespace SurrogateError

/-- The message of an encoding error. -/
def message (e : SurrogateError) : Text :=
  let place :=
    match e.surrogates with
    | [c] => "character '" ++ Text.escapeChar '\'' c ++ "' in position " ++ Text.ofNat e.position
    | surrogates =>
        "characters in position " ++ Text.ofNat e.position ++ "-" ++
          Text.ofNat (e.position + surrogates.length - 1)
  "'utf-8' codec can't encode " ++ place ++ ": surrogates not allowed"

end SurrogateError

/-- Why a text is no name of a file. -/
inductive NameFault where
  /-- A null character ends a name. -/
  | null
  | surrogates (e : SurrogateError)
deriving DecidableEq, Repr

namespace NameFault

/-- The fault in words. -/
def message : NameFault → Text
  | .null => "embedded null byte"
  | .surrogates e => e.message

/-- The name of the kind of error. -/
def kind : NameFault → Text
  | .null => "ValueError"
  | .surrogates _ => "UnicodeEncodeError"

end NameFault

namespace Text

/-- The characters of a text, if there are no surrogates among its code points. `position` is the
number of code points in front. -/
def characters? (position : Nat) : Text → Except SurrogateError (List Char)
  | [] => .ok []
  | .char c :: s => (characters? (position + 1) s).map (c :: ·)
  | .surrogate place :: s =>
      .error ⟨position, .surrogate place :: s.takeWhile CodePoint.isSurrogate⟩

/-- The UTF-8 form of characters. -/
def utf8 (characters : List Char) : Bytes :=
  characters.flatMap String.utf8EncodeChar

/-- The UTF-8 form of a text. -/
def toUtf8? (s : Text) : Except SurrogateError Bytes :=
  (characters? 0 s).map utf8

/-- The characters that show a text: a surrogate is shown by its number. -/
def shown (s : Text) : List Char :=
  s.flatMap fun
    | .char c => [c]
    | .surrogate place => '\\' :: 'u' :: Nat.toDigits 16 (0xd800 + place)

/-- The first surrogates of a name that stand for no bytes. `position` is the number of code points
in front. -/
def nameError? (position : Nat) : Text → Option SurrogateError
  | [] => none
  | .char _ :: s => nameError? (position + 1) s
  | .surrogate place :: s =>
      if 0x480 ≤ place.val ∧ place.val < 0x500 then nameError? (position + 1) s
      else some ⟨position, .surrogate place :: s.takeWhile CodePoint.isSurrogate⟩

/-- What keeps a text from being the name of a file. -/
def nameFault? (s : Text) : Option NameFault :=
  match nameError? 0 s with
  | some e => some (.surrogates e)
  | none => if s.contains '\x00' then some .null else none

/-- The number of bytes that a first byte announces, and the least and greatest second byte. -/
def sequenceShape? (first : Nat) : Option (Nat × Nat × Nat) :=
  if first < 0x80 then some (1, 0x80, 0xbf)
  else if first < 0xc2 then none
  else if first < 0xe0 then some (2, 0x80, 0xbf)
  else if first = 0xe0 then some (3, 0xa0, 0xbf)
  else if first = 0xed then some (3, 0x80, 0x9f)
  else if first < 0xf0 then some (3, 0x80, 0xbf)
  else if first = 0xf0 then some (4, 0x90, 0xbf)
  else if first < 0xf4 then some (4, 0x80, 0xbf)
  else if first = 0xf4 then some (4, 0x80, 0x8f)
  else none

/-- The bits that a first byte of a sequence of `size` bytes carries. -/
def firstBits (size first : Nat) : Nat :=
  match size with
  | 1 => first
  | 2 => first % 32
  | 3 => first % 16
  | _ => first % 8

/-- The continuation bytes at the front of `bytes`, at most `count`; the first of them must lie
between `low` and `high`. -/
def continuation (low high : Nat) : Nat → Bytes → Bytes
  | 0, _ => []
  | _ + 1, [] => []
  | count + 1, b :: bytes =>
      if low ≤ b.toNat && b.toNat ≤ high then
        b :: continuation 0x80 0xbf count bytes
      else
        []

/-- The text that the bytes encode. -/
def ofUtf8? (bytes : Bytes) : Except Utf8Error Text :=
  go 0 bytes
where
  /-- `position` is the number of bytes in front. -/
  go (position : Nat) : Bytes → Except Utf8Error Text
    | [] => .ok []
    | first :: rest =>
        match sequenceShape? first.toNat with
        | none => .error ⟨.badStart, position, [first]⟩
        | some (size, low, high) =>
            let tail := continuation low high (size - 1) rest
            if tail.length + 1 = size then
              let code := tail.foldl (fun n b => 64 * n + b.toNat % 64)
                (firstBits size first.toNat)
              (go (position + size) (rest.drop tail.length)).map (CodePoint.ofNat code :: ·)
            -- The bytes end inside of the sequence.
            else if tail.length = rest.length then
              .error ⟨.truncated, position, first :: tail⟩
            else
              .error ⟨.badContinuation, position, first :: tail⟩
  termination_by bytes => bytes.length
  decreasing_by simp only [List.length_drop, List.length_cons]; omega

end Text
end VerilogLayout

import VerilogLayout.Data.Json

/-!
# What a JSON text spells

`Spells depth s value` says that the text `s`, which has no white space around it, is a spelling of
`value` in which no more than `depth` brackets are open at once, and `IsDocument depth s value`
allows white space around the whole. The relations follow the grammar of the format and do not
mention the reader: a value has many spellings, since white space may stand between any two tokens,
a code point may be escaped and a number with a fraction or an exponent may be written in many ways.
A repeated key is allowed and its last value counts. Two escaped surrogates that make a pair are one
character, and any other one stands for itself.

One text of the grammar is left out: an integer has no more than `Number.maxDigits` digits, as
longer ones are refused. -/

namespace VerilogLayout.Json

/-- Nothing but white space. -/
def IsGap (s : Text) : Prop :=
  ∀ c ∈ s, isSpace c = true

/-- One or more digits. -/
structure IsDigits (digits : List Char) : Prop where
  ne_nil : digits ≠ []
  digit : ∀ c ∈ digits, c.isDigit = true

/-- The letters after a backslash that stand for one character each. -/
def shortEscapes : List (CodePoint × CodePoint) :=
  [('"', '"'), ('\\', '\\'), ('/', '/'), ('b', '\x08'), ('f', '\x0c'), ('n', '\n'), ('r', '\r'),
    ('t', '\t')]

/-- A hexadecimal digit of either case and its value. -/
structure SpellsHex (c : CodePoint) (n : Nat) : Prop where
  lt : n < 16
  lower : c.toLower = Nat.digitChar n

/-- Four hexadecimal digits and the code unit they write. -/
inductive SpellsUnit : Text → Nat → Prop
  | mk {a b c d : CodePoint} {i j k l : Nat} (ha : SpellsHex a i) (hb : SpellsHex b j)
      (hc : SpellsHex c k) (hd : SpellsHex d l) :
      SpellsUnit [a, b, c, d] (((i * 16 + j) * 16 + k) * 16 + l)

/-- No escape of a low surrogate stands behind the escape of a high one. -/
def IsAlone (unit : Nat) (body : Text) : Prop :=
  0xd800 ≤ unit → unit < 0xdc00 → ∀ digits low after, SpellsUnit digits low →
    body = .char '\\' :: .char 'u' :: (digits ++ after) → ¬ (0xdc00 ≤ low ∧ low < 0xe000)

/-- What stands between the quotes of a string, and the text it spells. -/
inductive SpellsBody : Text → Text → Prop
  | nil : SpellsBody [] []
  | plain {c : CodePoint} {body s : Text} (hquote : c ≠ '"') (hslash : c ≠ '\\')
      (hcontrol : 0x20 ≤ c.toNat) (h : SpellsBody body s) : SpellsBody (c :: body) (c :: s)
  | short {e c : CodePoint} {body s : Text} (he : (e, c) ∈ shortEscapes) (h : SpellsBody body s) :
      SpellsBody (.char '\\' :: e :: body) (c :: s)
  | unit {c : CodePoint} {digits body s : Text} (hdigits : SpellsUnit digits c.toNat)
      (halone : IsAlone c.toNat body) (h : SpellsBody body s) :
      SpellsBody (.char '\\' :: .char 'u' :: (digits ++ body)) (c :: s)
  | pair {c : CodePoint} {high low : Nat} {front back body s : Text}
      (hfront : SpellsUnit front high)
      (hback : SpellsUnit back low) (hhigh : 0xd800 ≤ high ∧ high < 0xdc00)
      (hlow : 0xdc00 ≤ low ∧ low < 0xe000)
      (hc : c.toNat = 0x10000 + (high - 0xd800) * 0x400 + (low - 0xdc00)) (h : SpellsBody body s) :
      SpellsBody (.char '\\' :: .char 'u' :: (front ++ .char '\\' :: .char 'u' :: (back ++ body)))
        (c :: s)

/-- A string and the text it spells. -/
inductive SpellsString : Text → Text → Prop
  | mk {body s : Text} (h : SpellsBody body s) : SpellsString (.char '"' :: (body ++ [.char '"'])) s

/-- The minus sign of a negative number. -/
def sign (negative : Bool) : Text :=
  if negative then "-" else ""

/-- A fraction, which may be absent, and its digits. -/
inductive SpellsFraction : Text → List Char → Prop
  | absent : SpellsFraction [] []
  | digits {digits : List Char} (h : IsDigits digits) :
      SpellsFraction (.char '.' :: digits.map .char) digits

/-- The signs that an exponent may have, and whether it is negative then. -/
def exponentSigns : List (Text × Bool) :=
  [("", false), ("+", false), ("-", true)]

/-- An exponent, which may be absent, and its value. -/
inductive SpellsExponent : Text → Int → Prop
  | absent : SpellsExponent [] 0
  | present {mark : CodePoint} {sign : Text} {digits : List Char} {negative : Bool}
      (hmark : mark = 'e' ∨ mark = 'E') (hsign : (sign, negative) ∈ exponentSigns)
      (h : IsDigits digits) :
      SpellsExponent (mark :: (sign ++ digits.map .char))
        (Number.signed negative (Nat.ofDigitChars 10 digits 0))

/-- A number and its value. A whole number is written in the usual way, with a sign also before a
zero; one with a fraction or an exponent is the floating-point number nearest to it. -/
inductive SpellsNumber : Text → Value → Prop
  | int {negative : Bool} {n : Nat} (hsize : (Text.ofNat n).length ≤ Number.maxDigits) :
      SpellsNumber (sign negative ++ Text.ofNat n) (.int (Number.signed negative n))
  | float {negative : Bool} {n : Nat} {fraction exponent : Text} {digits : List Char} {power : Int}
      (hfraction : SpellsFraction fraction digits) (hexponent : SpellsExponent exponent power)
      (hsome : fraction ≠ [] ∨ exponent ≠ []) :
      SpellsNumber (sign negative ++ (Text.ofNat n ++ (fraction ++ exponent)))
        (.float (Number.ofDecimal negative (Nat.ofDigitChars 10 digits n) (power - digits.length)))

mutual
/-- A text without white space around it and the value it spells, with no more than `depth` brackets
open at once. -/
inductive Spells : (depth : Nat) → Text → Value → Prop
  | literal {depth : Nat} {name : Text} {value : Value} (h : (name, value) ∈ literals) :
      Spells depth name value
  | number {depth : Nat} {s : Text} {value : Value} (h : SpellsNumber s value) :
      Spells depth s value
  | text {depth : Nat} {string s : Text} (h : SpellsString string s) :
      Spells depth string (.text s)
  | emptyList {depth : Nat} {gap : Text} (h : IsGap gap) :
      Spells (depth + 1) (.char '[' :: (gap ++ [.char ']'])) (.list [])
  | list {depth : Nat} {s : Text} {items : List Value} (h : SpellsItems depth s items) :
      Spells (depth + 1) (.char '[' :: (s ++ [.char ']'])) (.list items)
  | emptyTable {depth : Nat} {gap : Text} (h : IsGap gap) :
      Spells (depth + 1) (.char '\x7b' :: (gap ++ [.char '\x7d'])) (.table [])
  | table {depth : Nat} {s : Text} {entries : List (Text × Value)}
      (h : SpellsEntries depth s entries) :
      Spells (depth + 1) (.char '\x7b' :: (s ++ [.char '\x7d'])) (.table (Table.ofEntries entries))

/-- What stands between the brackets of an array, and the items it spells. -/
inductive SpellsItems : (depth : Nat) → Text → List Value → Prop
  | last {depth : Nat} {front s back : Text} {value : Value} (hfront : IsGap front)
      (h : Spells depth s value) (hback : IsGap back) :
      SpellsItems depth (front ++ (s ++ back)) [value]
  | more {depth : Nat} {front s back rest : Text} {value : Value} {items : List Value}
      (hfront : IsGap front) (h : Spells depth s value) (hback : IsGap back)
      (hrest : SpellsItems depth rest items) :
      SpellsItems depth (front ++ (s ++ (back ++ .char ',' :: rest))) (value :: items)

/-- What stands between the braces of an object, and the entries it spells. -/
inductive SpellsEntries : (depth : Nat) → Text → List (Text × Value) → Prop
  | last {depth : Nat} {front string before after s back name : Text} {value : Value}
      (hfront : IsGap front) (hname : SpellsString string name) (hbefore : IsGap before)
      (hafter : IsGap after) (h : Spells depth s value) (hback : IsGap back) :
      SpellsEntries depth
        (front ++ (string ++ (before ++ .char ':' :: (after ++ (s ++ back))))) [(name, value)]
  | more {depth : Nat} {front string before after s back rest name : Text} {value : Value}
      {entries : List (Text × Value)} (hfront : IsGap front) (hname : SpellsString string name)
      (hbefore : IsGap before) (hafter : IsGap after) (h : Spells depth s value)
      (hback : IsGap back) (hrest : SpellsEntries depth rest entries) :
      SpellsEntries depth
        (front ++
          (string ++ (before ++ .char ':' :: (after ++ (s ++ (back ++ .char ',' :: rest))))))
        ((name, value) :: entries)
end

/-- A text that spells a value with white space around it. -/
inductive IsDocument (depth : Nat) : Text → Value → Prop
  | mk {front s back : Text} {value : Value} (hfront : IsGap front) (h : Spells depth s value)
      (hback : IsGap back) : IsDocument depth (front ++ (s ++ back)) value

end VerilogLayout.Json

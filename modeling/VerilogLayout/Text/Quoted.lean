import VerilogLayout.Text.Printable

/-!
# Quoted texts

Messages show a text between quotes, with the characters that cannot be shown written as
escapes. Single quotes are used unless the text holds a single quote and no double quote.
-/

namespace VerilogLayout.Text

/-- The last `width` hexadecimal digits of `n`. -/
def hexDigits (width n : Nat) : Text :=
  let digits := (Nat.toDigits 16 n).map CodePoint.char
  List.replicate (width - digits.length) (CodePoint.char '0') ++ digits

/-- The quote that a text is shown with. -/
def quoteFor (s : Text) : CodePoint :=
  if s.contains '\'' ∧ ¬s.contains '"' then '"' else '\''

/-- How one character is shown between quotes of the kind `quote`. -/
def escapeChar (quote c : CodePoint) : Text :=
  if c = quote ∨ c = '\\' then ['\\', c]
  else if c = '\n' then "\\n"
  else if c = '\r' then "\\r"
  else if c = '\t' then "\\t"
  else if isPrintable c then [c]
  else if c.toNat < 0x100 then "\\x" ++ hexDigits 2 c.toNat
  else if c.toNat < 0x10000 then "\\u" ++ hexDigits 4 c.toNat
  else "\\U" ++ hexDigits 8 c.toNat

/-- The text between quotes. -/
def quoted (s : Text) : Text :=
  let quote := quoteFor s
  [quote] ++ s.flatMap (escapeChar quote) ++ [quote]

end VerilogLayout.Text

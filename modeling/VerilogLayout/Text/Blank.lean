import VerilogLayout.Text.Basic

/-!
# Blank characters

The white space of Unicode together with the four information separators. Trimming, splitting
into words and every blank in a line pattern use this one class. `isBlank_of_isWhitespace` says
that it contains core's class.
-/

namespace VerilogLayout.Text

/-- `isBlank c` holds for white space of any kind. -/
def isBlank (c : CodePoint) : Bool :=
  let n := c.toNat
  n == 32 || (9 ≤ n && n ≤ 13) || (28 ≤ n && n ≤ 31) || n == 0x85 || n == 0xa0 || n == 0x1680 ||
    (0x2000 ≤ n && n ≤ 0x200a) || n == 0x2028 || n == 0x2029 || n == 0x202f || n == 0x205f ||
    n == 0x3000

/-- The text without the blanks in front. -/
def trimLeft (s : Text) : Text :=
  s.dropWhile isBlank

/-- The text without the blanks behind. -/
def trimRight (s : Text) : Text :=
  dropRightWhile isBlank s

/-- The text without the blanks at both ends. -/
def trim (s : Text) : Text :=
  trimWhile isBlank s

/-- The text without the spaces at both ends. -/
def trimSpaces (s : Text) : Text :=
  trimWhile (· == ' ') s

/-- The longest parts of a text that hold no blank. -/
def words (s : Text) : List Text :=
  go [] s
where
  /-- `word` is the reversed part of the word that is being read. -/
  go (word : Text) : Text → List Text
    | [] => close word
    | c :: s => if isBlank c then close word ++ go [] s else go (c :: word) s
  /-- An empty word is none. -/
  close (word : Text) : List Text :=
    if word.isEmpty then [] else [word.reverse]

/-- What the library takes for white space is blank. -/
theorem isBlank_of_isWhitespace {c : Char} (h : c.isWhitespace) : isBlank c := by
  simp only [Char.isWhitespace, Bool.or_eq_true, decide_eq_true_eq] at h
  rcases h with ((rfl | rfl) | rfl) | rfl <;> decide

end VerilogLayout.Text

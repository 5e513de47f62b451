import VerilogLayout.Text.Basic

/-!
# Lines

Three views of the lines of a text. `Text.lines` cuts at every line boundary of Unicode and may
keep the boundaries, `Text.unifyNewlines` reads a carriage return, alone or before a line feed,
as one line feed, and `Text.expandTabs` replaces tabs by spaces up to the next stop.
-/

namespace VerilogLayout.Text

/-- `isLineEnd c` holds for a character that ends a line. -/
def isLineEnd (c : CodePoint) : Bool :=
  let n := c.toNat
  (10 ≤ n && n ≤ 13) || (28 ≤ n && n ≤ 30) || n == 0x85 || n == 0x2028 || n == 0x2029

/-- The lines of a text, each with the characters that end it. -/
def linesWithEnds (s : Text) : List Text :=
  go [] s
where
  /-- `line` is the reversed part of the line that is being read. -/
  go (line : Text) : Text → List Text
    | [] => if line.isEmpty then [] else [line.reverse]
    | '\r' :: '\n' :: s => (.char '\n' :: .char '\r' :: line).reverse :: go [] s
    | c :: s => if isLineEnd c then (c :: line).reverse :: go [] s else go (c :: line) s

/-- The lines of a text, without the characters that end them. -/
def lines (s : Text) : List Text :=
  (linesWithEnds s).map (dropRightWhile isLineEnd)

/-- A carriage return, alone or before a line feed, becomes a line feed. -/
def unifyNewlines : Text → Text
  | [] => []
  | '\r' :: '\n' :: s => '\n' :: unifyNewlines s
  | '\r' :: s => '\n' :: unifyNewlines s
  | c :: s => c :: unifyNewlines s

/-- A tab becomes the spaces up to the next multiple of `width`; a line feed and a carriage return
start a new count. -/
def expandTabs (width : Nat) (s : Text) : Text :=
  go 0 s
where
  /-- `column` is the place of the next character on its line. -/
  go (column : Nat) : Text → Text
    | [] => []
    | c :: s =>
        if c = '\t' then
          let gap := width - column % width
          spaces gap ++ go (column + gap) s
        else if c = '\n' ∨ c = '\r' then
          c :: go 0 s
        else
          c :: go (column + 1) s

end VerilogLayout.Text

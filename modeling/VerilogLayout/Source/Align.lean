import VerilogLayout.Source.Form
import VerilogLayout.Text.Lines

/-!
# Aligning source text line by line

`alignText` puts the declarations of a text at their columns without a tree. Each line is taken
apart on its own: `CodeLine.ofLine?` separates indentation, code and comment and passes over lines
that hold no declaration. Two things carry over from line to line, a block comment that is open and
a list of parameters that is open; `BlockState.next` follows them.
-/

namespace VerilogLayout

/-- The words that start lines without declarations. -/
def controlWords : List Text :=
  ["module", "macromodule", "endmodule", "function", "endfunction", "task", "endtask",
    "always", "initial", "begin", "end", "if", "else", "case", "casex", "casez", "endcase",
    "default", "for", "while", "repeat", "forever", "generate", "endgenerate", "fork", "join",
    "`define", "`include", "`ifdef", "`ifndef", "`else", "`endif", "`timescale"].map
      fun (word : String) => word

/-- A line that may hold a declaration. -/
structure CodeLine where
  /-- The number of spaces in front. -/
  indent : Nat
  code : Text
  /-- The line comment with its slashes, or nothing. -/
  comment : Text
deriving DecidableEq, Repr

namespace CodeLine

/-- The first word of a line ends at a blank, an opening parenthesis or a semicolon. -/
def firstWord (s : Text) : Text :=
  s.takeWhile fun c => !(Text.isBlank c || c = '(' || c = ';')

/-- `passesOver s` holds if the trimmed line `s` is empty, starts as a comment, opens a block
comment anywhere or starts with a control word. -/
def passesOver (s : Text) : Bool :=
  s.isEmpty || Text.startsWith s "//" || Text.startsWith s "*" || Text.includes s "/*" ||
    controlWords.contains (firstWord s)

/-- The parts of a line that may hold a declaration. -/
def ofLine? (line : Text) : Option CodeLine :=
  let expanded := Text.expandTabs indentWidth line
  let trimmed := Text.trim expanded
  if passesOver trimmed then
    none
  else
    let code := Text.before "//" trimmed
    some
      { indent := (expanded.takeWhile (· = .char ' ')).length
        code := Text.trimRight code
        comment := trimmed.drop code.length }

/-- The aligned line, if the code has a form. -/
def aligned? (columns : Columns) (inParameters : Bool) (line : CodeLine) : Option Text :=
  (LineForm.ofCode? line.code).map fun form =>
    let aligned := form.layout columns line.indent inParameters
    if line.comment.isEmpty then aligned else aligned ++ " " ++ Text.trimRight line.comment

end CodeLine

/-- A line with its declaration at the columns, or the line as it stands. -/
def alignLine (columns : Columns) (inParameters : Bool) (line : Text) : Text :=
  ((CodeLine.ofLine? line).bind (CodeLine.aligned? columns inParameters)).getD line

/-- Why a line cannot be aligned. -/
inductive LineFault where
  /-- The line is not one line. -/
  | spansLines
deriving DecidableEq, Repr

namespace LineFault

/-- The fault in words. -/
def message : LineFault → Text
  | .spansLines => "'NoneType' object has no attribute 'group'"

end LineFault

/-- The aligned line, or the fault of a line that is not one line: it has a line feed inside and
may hold a declaration. -/
def alignLine? (columns : Columns) (inParameters : Bool) (line : Text) :
    Except LineFault Text :=
  if (CodeLine.ofLine? line).isSome && (Text.trim line).contains '\n' then
    .error .spansLines
  else
    .ok (alignLine columns inParameters line)

/-- What is open at the start of a line. -/
structure BlockState where
  inComment : Bool := false
  inParameters : Bool := false
deriving DecidableEq, Repr

namespace BlockState

/-- The part of a line before a line comment, wherever its slashes stand. -/
def code (line : Text) : Text :=
  Text.before "//" line

/-- `keeps state line` holds if the line belongs to a block comment or opens one. -/
def keeps (state : BlockState) (line : Text) : Bool :=
  state.inComment || Text.includes (code line) "/*"

/-- The place of the last occurrence, counted from one, or zero. -/
def lastPlace (t s : Text) : Nat :=
  match Text.findLast? t s with
  | some n => n + 1
  | none => 0

/-- `opensParameters code` holds if the first list of parameters in `code` stays open. -/
def opensParameters (code : Text) : Bool :=
  match Text.find? "#(" code with
  | some n => !Bracket.isBalanced (code.drop n)
  | none => false

/-- What is open behind a line. -/
def next (state : BlockState) (line : Text) : BlockState :=
  let code := code line
  -- A line of a block comment says nothing about parameters.
  if state.keeps line then
    { state with
      inComment :=
        if Text.includes code "/*" then lastPlace "/*" code > lastPlace "*/" code
        else !Text.includes code "*/" }
  else if opensParameters code then
    { state with inParameters := true }
  else if state.inParameters && Text.startsWith (Text.trim code) ")" then
    { state with inParameters := false }
  else
    state

end BlockState

/-- The lines with their declarations at the columns; `state` is what is open before them. -/
def alignLines (columns : Columns) (state : BlockState) : List Text → List Text
  | [] => []
  | line :: lines =>
      let aligned :=
        if state.keeps line then line else alignLine columns state.inParameters line
      aligned :: alignLines columns (state.next line) lines

/-- A text with its declarations at the columns. -/
def alignText (columns : Columns) (text : Text) : Text :=
  List.intercalate "\n" (alignLines columns {} (List.splitOn (.char '\n') text))

theorem length_alignLines (columns : Columns) (state : BlockState) (lines : List Text) :
    (alignLines columns state lines).length = lines.length := by
  induction lines generalizing state with
  | nil => rfl
  | cons line lines ih => simp [alignLines, ih]

end VerilogLayout

import VerilogLayout.Column.Layout
import VerilogLayout.Column.Range
import VerilogLayout.Source.Scan
import VerilogLayout.Tree.Keyword

/-!
# Forms of source lines

A `LineForm` is what one line of source declares, taken apart into the fields that are laid out in
columns. `LineForm.ofCode?` reads a line without its indentation and its comment. A line of no
form, and one whose fields could not be written back safely, has none; it is left alone. The first
word decides the form, so no two forms compete for a line.
-/

namespace VerilogLayout

/-- What a line of source declares. -/
inductive LineForm where
  | port (keyword net signing range : Text) (names : List Text) (terminator : Text)
  | signal (keyword signing range : Text) (names dimensions : List Text) (value : Option Text)
  | parameter (keyword : Text) (modifiers : List Text) (name value terminator : Text)
  | assign (target value : Text)
  | connection (name value terminator : Text)
deriving DecidableEq, Repr

namespace LineForm

open Scan

/-! ## Parts of declarations -/

/-- The words for the direction of a port. -/
def directions : List Text :=
  ["input", "output", "inout"]

/-- The words that a signal's declaration starts with. -/
def signalKeywords : List Text :=
  Keyword.netTypes ++ Keyword.variableTypes

/-- The words that a parameter's declaration starts with. -/
def parameterKeywords : List Text :=
  ["parameter", "localparam"]

/-- The words for the type of a parameter. -/
def parameterTypes : List Text :=
  ["signed", "integer", "real", "realtime", "time"]

/-- What may end an item of a list: nothing, a comma or a semicolon. -/
def terminator? (s : Text) : Option Text :=
  match Text.trimLeft s with
  | [] => some []
  | [c] => if c = ',' ∨ c = ';' then some [c] else none
  | _ => none

/-- A range, if there is one, and a list of names. -/
def rangeAndNames? (s : Text) : Option (Text × List Text × Text) :=
  let (range, rest) := (range? s).getD ([], s)
  (names? (Text.trimLeft rest)).map fun (names, rest) => (range, names, rest)

/-- A sign, if the rest has its names behind it; otherwise the word is one of the names. -/
def vector? (s : Text) : Option (Text × Text × List Text × Text) :=
  let signed := do
    let (signing, rest) ← keyword? Keyword.signings s
    let declared ← rangeAndNames? rest
    some (signing, declared)
  signed <|> (rangeAndNames? s).map (([], ·))

/-- The text in front of a semicolon that ends the line and is its only one. -/
def statement? (s : Text) : Option Text :=
  let body := s.dropLast
  if s.getLast? = some (.char ';') ∧ body ≠ [] ∧ .char ';' ∉ body then some body else none

/-! ## The five forms -/

/-- A port with its net type, if it is followed by what a port has to have. -/
def port? (s : Text) : Option LineForm := do
  let (keyword, rest) ← keyword? directions s
  let typed := do
    let (net, rest) ← keyword? Keyword.netTypes rest
    let (signing, range, names, rest) ← vector? rest
    let terminator ← terminator? rest
    some (LineForm.port keyword net signing range names terminator)
  let untyped := do
    let (signing, range, names, rest) ← vector? rest
    let terminator ← terminator? rest
    some (LineForm.port keyword [] signing range names terminator)
  typed <|> untyped

/-- The initial value of a signal, which may be blank, or none. -/
def initialValue? : Text → Option (Option Text)
  | [';'] => some none
  | '=' :: s => (statement? s).map fun value => some (Text.trim value)
  | _ => none

/-- Signals of one type. -/
def signal? (s : Text) : Option LineForm := do
  let (keyword, rest) ← keyword? signalKeywords s
  let (signing, range, names, rest) ← vector? rest
  let (dimensions, rest) := ranges (Text.trimLeft rest)
  let value ← initialValue? rest
  some (.signal keyword signing range names dimensions value)

/-- The value of a parameter and what ends it. Only a blank value may stand before a semicolon
that has nothing else in front. -/
def parameterValue? (s : Text) : Option (Text × Text) :=
  match Text.trimLeft s with
  | [] => none
  | [';'] => if s.length > 1 then some ([], ";") else none
  | c :: rest =>
      let ends := rest.getLast? = some (.char ',') ∨ rest.getLast? = some (.char ';')
      let value := if ends then Text.trimRight (c :: rest.dropLast) else c :: rest
      let terminator := if ends then rest.getLast?.toList else []
      if .char ';' ∈ value then none else some (value, terminator)

/-- The name of a parameter, an equals sign and the value. -/
def namedValue? (s : Text) : Option (Text × Text × Text) := do
  let (name, rest) ← name? s
  match Text.trimLeft rest with
  | '=' :: rest => (parameterValue? rest).map (name, ·)
  | _ => none

/-- A word or range that modifies a parameter, with the text behind the blanks after it. -/
def modifier? (s : Text) : Option (Text × Text) :=
  keyword? parameterTypes s <|> (range? s).map fun (range, rest) => (range, Text.trimLeft rest)

/-- Modifiers and a named value. A word that could be a modifier is the name if nothing behind it
is one. The fuel bounds the number of modifiers. -/
def modified? : Nat → Text → Option (List Text × Text × Text × Text)
  | 0, s => (namedValue? s).map ([], ·)
  | fuel + 1, s =>
      let longer := do
        let (modifier, rest) ← modifier? s
        let (modifiers, named) ← modified? fuel rest
        some (modifier :: modifiers, named)
      longer <|> (namedValue? s).map ([], ·)

/-- One parameter with its value. -/
def parameter? (s : Text) : Option LineForm := do
  let (keyword, rest) ← keyword? parameterKeywords s
  let (modifiers, name, value, terminator) ← modified? rest.length rest
  some (.parameter keyword modifiers name value terminator)

/-- A continuous assignment of one value. -/
def assign? (s : Text) : Option LineForm :=
  let rest := s.drop "assign".length
  let target := rest.takeWhile (· ≠ .char '=')
  if s.takeWhile Text.isWord = ("assign" : Text) ∧ target ≠ [] ∧ .char '#' ∉ target ∧
    .char ';' ∉ target then
    match rest.dropWhile (· ≠ .char '=') with
    | '=' :: rest =>
        (statement? rest).map fun value => .assign (Text.trim target) (Text.trim value)
    | _ => none
  else
    none

/-- The text before the last closing parenthesis and the text behind it. -/
def atLastClosing? (s : Text) : Option (Text × Text) :=
  (Text.findLast? ")" s).map fun n => (s.take n, s.drop (n + 1))

/-- A named connection. -/
def connection? (s : Text) : Option LineForm := do
  let '.' :: rest := s | none
  let (name, rest) ← name? rest
  let '(' :: rest := Text.trimLeft rest | none
  let (value, rest) ← atLastClosing? rest
  let terminator := Text.trimLeft rest
  if terminator = [] ∨ terminator = [.char ','] then
    some (.connection name (Text.trim value) terminator)
  else
    none

/-! ## Lines that are safe to write -/

/-- `namesAnother s` holds if a comma in `s` is followed by a name and an equals sign. -/
def namesAnother : Text → Bool
  | [] => false
  | c :: s =>
      (c = ',' &&
        match name? (Text.trimLeft s) with
        | some (_, rest) => (Text.trimLeft rest).head? = some (.char '=')
        | none => false) || namesAnother s

/-- `isSafe form` holds if one declaration is on the line and its values are complete. -/
def isSafe : LineForm → Bool
  | .port .. => true
  | .signal _ _ _ names dimensions value =>
      dimensions.isEmpty || (names.length ≤ 1 && value.isNone)
  | .parameter _ _ _ value _ => !namesAnother value && Bracket.isBalanced value
  | .assign _ value => Bracket.isBalanced value
  | .connection _ value _ => Bracket.isBalanced value

/-- The form of a line without indentation and comment. -/
def ofCode? (code : Text) : Option LineForm :=
  (port? code <|> signal? code <|> parameter? code <|> assign? code <|> connection? code).filter
    isSafe

/-! ## Layout -/

/-- The whole levels by which a line is indented deeper than a column. -/
def shiftFor (indent column : Nat) : Nat :=
  (indent - column) / indentWidth * indentWidth

/-- The column at which a connection starts that is not nested deeper. -/
def connectionIndent : Nat :=
  2 * indentWidth

/-- A modifier of a parameter as it is written. -/
def writtenModifier (columns : Columns) (modifier : Text) : Text :=
  if Text.startsWith modifier "[" then Range.normalise columns modifier else modifier

/-- A range as it is written; an absent one stays absent. -/
def writtenRange (columns : Columns) (range : Text) : Text :=
  if range.isEmpty then [] else Range.normalise columns range

/-- The names of a declaration, the initial value behind them. -/
def writtenNames (names : List Text) (value : Option Text) : Text :=
  List.intercalate ", " names ++
    match value with
    | some value => " = " ++ value
    | none => []

/-- The line of a form. `indent` is the indentation that the line has, and `inParameters` says
whether a connection belongs to a list of parameters. -/
def layout (columns : Columns) (indent : Nat) (inParameters : Bool) : LineForm → Text
  | .port keyword net signing range names terminator =>
      Layout.port columns
        { keyword, signing, terminator
          modifiers := net
          range := writtenRange columns range
          names := writtenNames names none }
        0 (shiftFor indent (columns .portKeyword))
  | .signal keyword signing range names dimensions value =>
      Layout.signal columns
        { keyword, signing
          range := writtenRange columns range
          names := writtenNames names value
          dimensions := (dimensions.map (Range.normalise columns)).flatten
          terminator := ";" }
        0 (shiftFor indent (columns .signalKeyword))
  | .parameter keyword modifiers name value terminator =>
      Layout.parameter columns
        { keyword, name, value, terminator
          modifiers := List.intercalate " " (modifiers.map (writtenModifier columns)) }
        0 (shiftFor indent (columns .parameterKeyword))
  | .assign target value =>
      Layout.assign columns [(target, value)] ";" 0 (shiftFor indent (columns .assignKeyword))
  | .connection name value terminator =>
      let column := if inParameters then columns .parameterValue else columns .portValue
      let shift := shiftFor indent connectionIndent
      let start := connectionIndent + shift
      Text.spaces start ++ Layout.connection name value (column + shift) terminator start

end LineForm
end VerilogLayout

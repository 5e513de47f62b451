import VerilogLayout.Report
import VerilogLayout.Source.Scan
import VerilogLayout.Template.Comment
import VerilogLayout.Text.Bracket

/-!
# Module headers

A `ModuleHeader` is what an instance has to know of a module: its name, its parameters with their
standard values, and its ports. `ModuleHeader.ofSource?` reads the first header of a source text.
An entry of a list is taken apart loosely: a parameter is the first name with an equals sign behind
it, and a port is the last name in front of its dimensions.
-/

namespace VerilogLayout

/-- The header of a module. -/
structure ModuleHeader where
  name : Text
  /-- The parameters with their values. -/
  parameters : List (Text × Text)
  ports : List Text
deriving DecidableEq, Repr

/-- Why a source text has no header that can be read. -/
inductive HeaderError where
  | noModule
  /-- The sign for parameters has no list behind it. -/
  | malformedParameters (module : Text)
  | unbalanced
  | noPorts (module : Text)
deriving DecidableEq, Repr

namespace HeaderError

/-- The message of an error. -/
def message : HeaderError → Text
  | .noModule => "No module declaration found"
  | .malformedParameters module => "Malformed parameter list of module '" ++ module ++ "'"
  | .unbalanced => "Unbalanced parentheses in module header"
  | .noPorts module => "No port list found for module '" ++ module ++ "'"

/-- The hint of an error. -/
def hint? : HeaderError → Option Text
  | .noModule => some "The text must contain 'module <name> (...);'."
  | .noPorts _ => some "Only modules with a parenthesised port list can be instantiated."
  | .malformedParameters _ | .unbalanced => none

/-- What an error says. -/
def report (e : HeaderError) : Report :=
  { topic := .template, message := e.message, hint := e.hint? }

end HeaderError

namespace ModuleHeader

open Scan

/-- A module's name behind one of the words for a module, blanks between. -/
def declaredName? (s : Text) : Option (Text × Text) :=
  if Text.startsWith s "macromodule" then behind (s.drop "macromodule".length)
  else if Text.startsWith s "module" then behind (s.drop "module".length)
  else none
where
  /-- The name behind at least one blank. -/
  behind (s : Text) : Option (Text × Text) :=
    if s.head?.any Text.isBlank then name? (Text.trimLeft s) else none

/-- The first declared name and the text behind it. The word in front of it starts a word of the
text; `inWord` says that the character before the text belongs to a word. -/
def findName? (inWord : Bool) : Text → Option (Text × Text)
  | [] => none
  | c :: s =>
      match if inWord then none else declaredName? (c :: s) with
      | some found => some found
      | none => findName? (Text.isWord c) s

/-- The text up to the parenthesis that closes `depth` open ones, and the text behind it. -/
def upToClosing? (depth : Nat) : Text → Option (Text × Text)
  | [] => none
  | c :: s =>
      if c = ')' ∧ depth = 1 then
        some ([], s)
      else
        let depth := if c = '(' then depth + 1 else if c = ')' then depth - 1 else depth
        (upToClosing? depth s).map fun (body, rest) => (c :: body, rest)

/-- The text in the parentheses at the front, and the text behind them. -/
def group? : Text → Except HeaderError (Text × Text)
  | '(' :: s =>
      match upToClosing? 1 s with
      | some found => .ok found
      | none => .error .unbalanced
  | _ => .error .unbalanced

/-- The entries of a list: what stands between the commas outside of brackets, without blank
ones. -/
def entries (s : Text) : List Text :=
  ((Bracket.topLevelParts ',' 0 s).map Text.trim).filter fun entry => !entry.isEmpty

/-- An entry without a word for a parameter in front. -/
def withoutKeyword (entry : Text) : Text :=
  let word := entry.takeWhile Text.isWord
  if word = ("parameter" : Text) ∨ word = ("localparam" : Text) then
    Text.trim (entry.drop word.length)
  else
    entry

/-- The first name with an equals sign and a value behind it. The search goes through the text
character by character, so a name may be the end of a word. -/
def named? : Text → Option (Text × Text)
  | [] => none
  | c :: s =>
      let here := do
        let (name, rest) ← name? (c :: s)
        let '=' :: value := Text.trimLeft rest | none
        if value.isEmpty then none else some (name, value)
      here <|> named? s

/-- The parameter that an entry declares, its value with single spaces between the words. -/
def parameter? (entry : Text) : Option (Text × Text) :=
  (named? (withoutKeyword entry)).map fun (name, value) =>
    (name, List.intercalate " " (Text.words value))

/-- `isRanges count s` holds if `s` consists of ranges with blanks in front of each. The fuel
`count` bounds their number. -/
def isRanges : Nat → Text → Bool
  | 0, _ => false
  | count + 1, s =>
      match Text.trimLeft s with
      | '[' :: rest =>
          match rest.dropWhile (· ≠ .char ']') with
          | _ :: rest => rest.isEmpty || isRanges count rest
          | [] => false
      | _ => false

/-- A port's entry without the ranges at its end. -/
def withoutDimensions : Text → Text
  | [] => []
  | c :: s => if isRanges (c :: s).length (c :: s) then [] else c :: withoutDimensions s

/-- The names in a text, from the left and each as long as can be. -/
def namesIn (s : Text) : List Text :=
  match s with
  | [] => []
  | c :: rest =>
      match _hname : name? (c :: rest) with
      | some (name, behind) => name :: namesIn behind
      | none => namesIn rest
termination_by s.length
decreasing_by
  · exact length_lt_of_name? _hname
  · simp

/-- The name of the port that an entry declares. -/
def port? (entry : Text) : Option Text :=
  (namesIn (withoutDimensions entry)).getLast?

/-- The parameters behind a module's name, and the text behind them. -/
def parameters? (name s : Text) : Except HeaderError (List (Text × Text) × Text) :=
  if Text.startsWith s "#" then
    match s.dropWhile (· ≠ .char '(') with
    | [] => .error (.malformedParameters name)
    | list => do
        let (body, rest) ← group? list
        .ok ((entries body).filterMap parameter?, Text.trimLeft rest)
  else
    .ok ([], s)

/-- The ports at the front of a text. -/
def ports? (name s : Text) : Except HeaderError (List Text) := do
  if Text.startsWith s "(" then
    let (body, _) ← group? s
    .ok ((entries body).filterMap port?)
  else
    .error (.noPorts name)

/-- The first module header of a source text. -/
def ofSource? (source : Text) : Except HeaderError ModuleHeader :=
  match findName? false (Template.withoutComments source) with
  | none => .error .noModule
  | some (name, rest) => do
      let (parameters, rest) ← parameters? name (Text.trimLeft rest)
      let ports ← ports? name rest
      .ok { name, parameters, ports }

end ModuleHeader
end VerilogLayout

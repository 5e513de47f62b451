import VerilogLayout.Text.Digit
import VerilogLayout.Text.Quoted

/-!
# Options and arguments

A `Grammar` lists the options of a command and says what its operands are. `Grammar.read` takes the
words of a command line apart: options may be shortened as long as one name fits, short options may
share a word, and words behind two dashes are no options. Words that belong to nothing are kept as
strays, for the caller to judge. Options act in the order in which they stand, so the first fault or
request for help ends the reading.
-/

namespace VerilogLayout.Command

/-- What an option does. -/
inductive OptionRole where
  | help
  | version
  | flag
  /-- The option takes a value, which is one of `choices` if there are any. -/
  | value (choices : List Text)
deriving DecidableEq, Repr

/-- An option with its names. -/
structure OptionSpec where
  names : List Text
  role : OptionRole
deriving DecidableEq, Repr

/-- What the words are that belong to no option. -/
inductive Operands where
  /-- One word, which has to be given. -/
  | one (name : Text)
  /-- The words of the first group. -/
  | many
  /-- One of the words `choices` and everything behind it. -/
  | command (name : Text) (choices : List Text)
deriving DecidableEq, Repr

/-- The options and operands of a command. -/
structure Grammar where
  options : List OptionSpec
  operands : Operands
deriving DecidableEq, Repr

/-- Why a command line cannot be read. -/
inductive Fault where
  | ambiguous (word : Text) (names : List Text)
  | ignoredValue (option : OptionSpec) (value : Text)
  | missingValue (option : OptionSpec)
  | invalidChoice (about : Text) (value : Text) (choices : List Text)
  | missingOperand (name : Text)
  | strays (words : List Text)
deriving DecidableEq, Repr

/-- What ends the reading of a command line. -/
inductive Stop where
  | help
  | version
  | fault (fault : Fault)
deriving DecidableEq, Repr

namespace OptionSpec

/-- The names of an option in a message. -/
def label (option : OptionSpec) : Text :=
  List.intercalate "/" option.names

/-- `takesValue o` holds if a value belongs to the option. -/
def takesValue (option : OptionSpec) : Bool :=
  match option.role with
  | .value _ => true
  | _ => false

end OptionSpec

namespace Fault

/-- A fault in words. -/
def message : Fault → Text
  | .ambiguous word names =>
      "ambiguous option: " ++ word ++ " could match " ++ List.intercalate ", " names
  | .ignoredValue option value =>
      "argument " ++ option.label ++ ": ignored explicit argument " ++ Text.quoted value
  | .missingValue option => "argument " ++ option.label ++ ": expected one argument"
  | .invalidChoice about value choices =>
      "argument " ++ about ++ ": invalid choice: " ++ Text.quoted value ++ " (choose from " ++
        List.intercalate ", " (choices.map Text.quoted) ++ ")"
  | .missingOperand name => "the following arguments are required: " ++ name
  | .strays words => "unrecognized arguments: " ++ List.intercalate " " words

end Fault

/-! ## Words -/

/-- A value in the same word as an option. -/
structure Attached where
  value : Text
  /-- An equals sign stands in front of the value. -/
  isAssigned : Bool
deriving DecidableEq, Repr

/-- What a word of a command line is. -/
inductive Word where
  /-- A word that is no option. -/
  | operand (text : Text)
  /-- An option by one of its names. -/
  | option (option : OptionSpec) (name : Text) (attached : Option Attached) (text : Text)
  /-- A word with the form of an option that is none. -/
  | unknown (text : Text)
  /-- The two dashes after which all words are operands. -/
  | dashes
deriving DecidableEq, Repr

namespace Word

/-- The word as it was given. -/
def text : Word → Text
  | .operand text | .unknown text => text
  | .option _ _ _ text => text
  | .dashes => "--"

/-- `isOption w` holds for a word with the form of an option. -/
def isOption : Word → Bool
  | .option .. | .unknown _ => true
  | .operand _ | .dashes => false

end Word

/-- `isNumber s` holds for a negative number, which is no option; its digits may be of any
script, and a line feed may end it. -/
def isNumber (s : Text) : Bool :=
  match s with
  | '-' :: body =>
      let body := if body.getLast? = some (.char '\n') then body.dropLast else body
      let whole := body.takeWhile fun c => (Text.digit? c).isSome
      match body.drop whole.length with
      | [] => !whole.isEmpty
      | '.' :: fraction => !fraction.isEmpty && fraction.all fun c => (Text.digit? c).isSome
      | _ => false
  | _ => false

namespace Grammar

/-- The names of all options with their options, in order. -/
def named (grammar : Grammar) : List (Text × OptionSpec) :=
  grammar.options.flatMap fun option => option.names.map fun name => (name, option)

/-- A word split at its first equals sign. -/
def assignment? (word : Text) : Option (Text × Text) :=
  match word.dropWhile (· ≠ .char '=') with
  | _ :: value => some (word.takeWhile (· ≠ '='), value)
  | [] => none

/-- The options that a word may stand for by a shortened name or, behind a single dash, together
with a value or further options. -/
def candidates (grammar : Grammar) (word : Text) : List (OptionSpec × Text × Option Attached) :=
  if Text.startsWith word "--" then
    let (name, attached) : Text × Option Attached :=
      match assignment? word with
      | some (name, value) => (name, some { value, isAssigned := true })
      | none => (word, none)
    (grammar.named.filter fun entry => Text.startsWith entry.1 name).map fun entry =>
      (entry.2, entry.1, attached)
  else
    grammar.named.filterMap fun (name, option) =>
      if name = word.take 2 then
        some (option, name, some { value := word.drop 2, isAssigned := false })
      else if Text.startsWith name word then some (option, name, none)
      else none

/-- What a word is that starts with a dash and has more characters. -/
def readDashed (grammar : Grammar) (word : Text) : Except Fault Word :=
  match assignment? word with
  | some (name, value) =>
      match grammar.named.lookup name with
      | some option => .ok (.option option name (some { value, isAssigned := true }) word)
      | none => guess
  | none => guess
where
  /-- What a word is that is no option's full name. -/
  guess : Except Fault Word :=
    match grammar.candidates word with
    | [] => .ok (if isNumber word || word.contains ' ' then .operand word else .unknown word)
    | [(option, name, attached)] => .ok (.option option name attached word)
    | found => .error (.ambiguous word (found.map fun entry => entry.2.1))

/-- What a word is. -/
def readWord (grammar : Grammar) (word : Text) : Except Fault Word :=
  if word.head? ≠ some (.char '-') then .ok (.operand word)
  else
    match grammar.named.lookup word with
    | some option => .ok (.option option word none word)
    | none => if word.length = 1 then .ok (.operand word) else grammar.readDashed word

/-- What the words of a command line are. -/
def readWords (grammar : Grammar) : List Text → Except Fault (List Word)
  | [] => .ok []
  | word :: words =>
      if word = ("--" : Text) then
        .ok (.dashes :: words.map Word.operand)
      else do
        let first ← grammar.readWord word
        let rest ← grammar.readWords words
        .ok (first :: rest)

end Grammar

/-! ## Command lines -/

/-- What has been read of a command line. -/
structure Reading where
  /-- The options given, each by its first name and with its value. -/
  given : List (Text × Text) := []
  /-- The operands, if they have been met. -/
  operands : Option (List Text) := none
  strays : List Text := []
deriving DecidableEq, Repr

namespace Reading

/-- The value that an option was given last. -/
def value? (reading : Reading) (name : Text) : Option Text :=
  reading.given.reverse.lookup name

/-- `has r name` holds if an option was given. -/
def has (reading : Reading) (name : Text) : Bool :=
  (reading.value? name).isSome

/-- The reading with an option and its value; help and version end it instead. -/
def act (reading : Reading) (option : OptionSpec) (value : Text) : Except Stop Reading :=
  let added := { reading with given := reading.given ++ [(option.names.head?.getD [], value)] }
  match option.role with
  | .help => .error .help
  | .version => .error .version
  | .flag => .ok added
  | .value choices =>
      if choices.isEmpty || choices.contains value then .ok added
      else .error (.fault (.invalidChoice option.label value choices))

/-- The reading with all given options acting in order. -/
def actAll (reading : Reading) (actions : List OptionSpec) : Except Stop Reading :=
  actions.foldlM (fun reading option => reading.act option []) reading

/-- The reading with more strays. -/
def stray (reading : Reading) (words : List Text) : Reading :=
  { reading with strays := reading.strays ++ words }

end Reading

namespace Grammar

/-- Takes a word apart in which an option without a value is followed by more. The options
`before` it act only when the word is known to be in order; `attached` is what follows. Returns the
options of the word, the last of them with its value if it has one in the word, and a stray. -/
def takeApart (grammar : Grammar) (option : OptionSpec) (name : Text) (before : List OptionSpec) :
    Nat → Attached → Except Stop (List OptionSpec × Option (OptionSpec × Option Text) × List Text)
  | fuel, attached =>
      if option.takesValue then
        .ok (before, some (option, some attached.value), [])
      else if Text.startsWith name "--" || attached.value.isEmpty || attached.isAssigned ||
          attached.value.head? = some (.char '-') then
        .error (.fault (.ignoredValue option attached.value))
      else
        let before := before ++ [option]
        let nextName : Text := '-' :: attached.value.take 1
        match fuel, grammar.named.lookup nextName with
        | _, none => .ok (before, none, ['-' :: attached.value])
        | 0, some _ => .ok (before, none, [])
        | fuel + 1, some next =>
            match attached.value.drop 1 with
            | [] => .ok (before, some (next, none), [])
            | '=' :: value =>
                takeApart grammar next nextName before fuel { value, isAssigned := true }
            | value => takeApart grammar next nextName before fuel { value, isAssigned := false }

/-- How many of the words in front the operands take: none if they do not fit. -/
def operandCount (grammar : Grammar) (words : List Word) : Nat :=
  let dashes := (words.takeWhile (· = .dashes)).length
  let isOperand (word : Word) : Bool :=
    match word with
    | .operand _ => true
    | _ => false
  match grammar.operands with
  | .one _ =>
      if (words.drop dashes).head?.any isOperand then
        dashes + 1 + ((words.drop (dashes + 1)).takeWhile (· = .dashes)).length
      else 0
  | .many => (words.takeWhile fun word => !word.isOption).length
  | .command _ _ => if (words.drop dashes).head?.any isOperand then words.length else 0

/-- The operands that some words give; the first two dashes are none, but a command keeps them. -/
def operandTexts (grammar : Grammar) (words : List Word) : List Text :=
  match grammar.operands with
  | .command _ _ => words.map Word.text
  | _ => (words.map Word.text).erase "--"

/-- The reading with operands, of which a command has to be one of its choices. -/
def addOperands (grammar : Grammar) (reading : Reading) (words : List Word) :
    Except Stop Reading :=
  let texts := grammar.operandTexts words
  let reading := { reading with operands := some texts }
  match grammar.operands with
  | .command name choices =>
      let first := texts.head?.getD []
      if choices.contains first then .ok reading
      else .error (.fault (.invalidChoice name first choices))
  | _ => .ok reading

/-- The reading with an option, and the number of words behind its own that it takes. -/
def addOption (grammar : Grammar) (reading : Reading) (option : OptionSpec) (name : Text)
    (attached : Option Attached) (behind : List Word) : Except Stop (Reading × Nat) := do
  let (before, last, strays) ←
    match attached with
    | some attached => grammar.takeApart option name [] attached.value.length attached
    | none => .ok ([], some (option, none), [])
  match last with
  | none => do
      let reading ← (reading.stray strays).actAll before
      .ok (reading, 0)
  | some (option, some value) => do
      let reading ← reading.actAll before
      .ok (← reading.act option value, 0)
  | some (option, none) =>
      if option.takesValue then
        match behind with
        | .operand value :: _ => do
            let reading ← reading.actAll before
            .ok (← reading.act option value, 1)
        | _ => .error (.fault (.missingValue option))
      else do
        let reading ← reading.actAll before
        .ok (← reading.act option [], 0)

/-- Reads words from the first to the last; the fuel bounds their number. -/
def readFrom (grammar : Grammar) : Nat → Reading → List Word → Except Stop Reading
  | 0, reading, _ => .ok reading
  | fuel + 1, reading, words =>
      let isLast := !words.any Word.isOption
      match words with
      | .unknown text :: rest => grammar.readFrom fuel (reading.stray [text]) rest
      | .option option name attached _ :: rest => do
          let (reading, taken) ← grammar.addOption reading option name attached rest
          grammar.readFrom fuel reading (rest.drop taken)
      | words =>
          let count := if reading.operands.isNone then grammar.operandCount words else 0
          let taken := words.take count
          if isLast then
            let rest := (words.drop count).map Word.text
            -- Any number of operands fits no words as well, so these match even without one.
            let matched := reading.operands.isNone && (count > 0 || grammar.operands = .many)
            if matched then
              (grammar.addOperands reading taken).map (·.stray rest)
            else
              .ok (reading.stray rest)
          else if count > 0 then do
            let reading ← grammar.addOperands reading taken
            grammar.readFrom fuel reading (words.drop count)
          else
            let strays := words.takeWhile fun word => !word.isOption
            grammar.readFrom fuel (reading.stray (strays.map Word.text)) (words.drop strays.length)

/-- Reads the words of a command line. -/
def read (grammar : Grammar) (words : List Text) : Except Stop Reading := do
  let words ← (grammar.readWords words).mapError Stop.fault
  let reading ← grammar.readFrom (2 * words.length + 1) {} words
  match grammar.operands, reading.operands with
  | .one name, none => .error (.fault (.missingOperand name))
  | _, _ => .ok reading

end Grammar
end VerilogLayout.Command

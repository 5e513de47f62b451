import VerilogLayout.Column.Mapping
import VerilogLayout.Data.Json
import VerilogLayout.Data.Toml.Document
import VerilogLayout.Event
import VerilogLayout.Files.Store
import VerilogLayout.Number.Spelling
import VerilogLayout.Text.Arguments
import VerilogLayout.Text.Lines

/-!
# Workspaces

A `Workspace` is what a configuration file says about formatting: the columns, and the program that
makes trees. `Workspace.load` finds and reads the file; a workspace without one has the standard
settings. A `ConfigError` that the user can mend in the file has a report, the others tell only
what is wrong with a value or which limit it passes.
-/

namespace VerilogLayout

/-- The program that makes trees, as a workspace sets it. -/
structure ParserSettings where
  /-- The words of the command; without any there is no program. -/
  command : List Text := []
  /-- The time in seconds that the program has. -/
  timeout : Float := 30.0
  /-- What the name of a tree file has behind the name of its source. -/
  treeSuffix : Text := ".ast.json"

namespace ParserSettings

/-- The settings of a workspace that says nothing about the program. -/
def standard : ParserSettings := {}

/-- `enabled p` holds if there is a program. -/
def enabled (settings : ParserSettings) : Bool :=
  !settings.command.isEmpty

end ParserSettings

/-- What a configuration file says. -/
structure Workspace where
  root : Path
  columns : Columns := Columns.standard
  parser : ParserSettings := {}
  /-- The file, if there is one. -/
  source : Option Path := none

/-- Why the text of a configuration file is of no use. -/
inductive ConfigProblem where
  | file (e : FileError)
  | encoding (e : Utf8Error)
  | json (fault : Json.Fault) (text : Text)
  | toml
  | limit (limit : Limit)

namespace ConfigProblem

/-- The problem in words. -/
def message : ConfigProblem → Text
  | .file e => e.message
  | .encoding e => e.message
  | .json fault text => fault.message text
  | .toml => Toml.faultMessage
  | .limit passed => passed.message

end ConfigProblem

/-- Why a configuration cannot be had. -/
inductive ConfigError where
  | notFound (path : Text)
  | unreadable (problem : ConfigProblem) (path : Text)
  /-- The file holds something else than a table. -/
  | noTable (path : Text)
  /-- The section of columns is something else than a table. -/
  | noSection
  | setting (e : SettingError)
  /-- The command is neither a text nor a list. -/
  | commandForm
  /-- The section of the program is something else than a table. -/
  | parserForm (value : Value)
  | commandText (fault : ArgumentsFault)
  | timeoutText (text : Text)
  | timeoutForm (value : Value)
  /-- The time limit is an integer past all floating-point numbers. -/
  | timeoutSize
  /-- A value passes a limit where it is read or written. -/
  | limit (limit : Limit)

namespace ConfigError

/-- What an error says that the user can mend in the file. -/
def report? : ConfigError → Option Report
  | .notFound path =>
      some (about ("Configuration file not found: " ++ path) (some path))
  | .unreadable problem path =>
      some (about ("Could not read configuration: " ++ problem.message) (some path))
  | .noTable path => some (about "Configuration root must be a table" (some path))
  | .noSection => some (about "The [align] section must be a table of options" none)
  | .setting e => e.report?
  | .commandForm =>
      some (about "parser.command must be a string or a list of arguments" none)
  | .parserForm _ | .commandText _ | .timeoutText _ | .timeoutForm _ | .timeoutSize
  | .limit _ => none
where
  /-- A report about a file. -/
  about (message : Text) (path : Option Text) : Report :=
    { topic := .settings, message, location := { path } }

/-- The message of an error. -/
def message (e : ConfigError) : Text :=
  match e with
  | .parserForm value => Text.quoted value.kindName ++ " object has no attribute 'get'"
  | .commandText fault => fault.message
  | .timeoutText text => "could not convert string to float: " ++ Text.quoted text
  | .timeoutForm value =>
      "float() argument must be a string or a real number, not " ++ Text.quoted value.kindName
  | .timeoutSize => "int too large to convert to float"
  | .setting e => e.message
  | .limit passed => passed.message
  | e => (e.report?.map Report.message).getD []

/-- The name of the kind of an error that has no report. -/
def kind : ConfigError → Text
  | .parserForm _ => "AttributeError"
  | .timeoutForm _ => "TypeError"
  | .timeoutSize => "OverflowError"
  | .setting (.limit passed) | .limit passed => passed.kind
  | _ => "ValueError"

end ConfigError

namespace Workspace

/-! ## Sections -/

/-- The text of a value that stands for an argument. -/
def readArgument? (room : Nat) (value : Value) : Except ConfigError Text :=
  (value.plain? room).mapError .limit

/-- The words of a command. -/
def readCommand? (room : Nat) : Value → Except ConfigError (List Text)
  | .text command => (Text.arguments? command).mapError .commandText
  | .list items => items.mapM (readArgument? room)
  | value => if value.isEmpty then .ok [] else .error .commandForm

/-- A time limit in seconds. -/
def readTimeout? : Value → Except ConfigError Float
  | .bool b => .ok (if b then 1.0 else 0.0)
  | .int n =>
      match Number.ofInt? n with
      | some x => .ok x
      | none => .error .timeoutSize
  | .float x => .ok x
  | .text s =>
      match Number.readFloat? s with
      | some x => .ok x
      | none => .error (.timeoutText s)
  | value => .error (.timeoutForm value)

/-- The time limit of a section, which may have none. -/
def readTimeLimit? : Option Value → Except ConfigError Float
  | some value => readTimeout? value
  | none => .ok ParserSettings.standard.timeout

/-- What the name of a tree file has behind the name of its source. -/
def readSuffix? (room : Nat) (value : Value) : Except ConfigError Text :=
  if value.isEmpty then .ok ParserSettings.standard.treeSuffix else readArgument? room value

/-- The settings of the program in a section. -/
def readParserSection? (room : Nat) (entries : Table) : Except ConfigError ParserSettings := do
  let command ← readCommand? room ((entries.get? "command").getD .null)
  let timeout ← readTimeLimit? (entries.get? "timeout")
  let treeSuffix ← readSuffix? room ((entries.get? "tree_suffix").getD .null)
  .ok { command, timeout, treeSuffix }

/-- The settings of the program in a file. -/
def readParser? (room : Nat) (data : Table) : Except ConfigError ParserSettings :=
  match (data.get? "parser").getD .null with
  | .table entries => readParserSection? room entries
  | value =>
      if value.isEmpty then .ok ParserSettings.standard else .error (.parserForm value)

/-- The entries that set columns: a section of their own or, in a file without one, all entries
that are no tables. -/
def alignEntries? (data : Table) : Except ConfigError Table :=
  match (data.get? "align").getD .null with
  | .null => .ok (data.filter fun entry => entry.2 matches .table _ |> not)
  | .table entries => .ok entries
  | _ => .error .noSection

/-! ## Files -/

/-- The names that a configuration file may have, the first one first. -/
def fileNames : List Text :=
  ["hdlalign.toml", ".hdlalign.json"]

/-- The configuration file of a directory. -/
def findFile? (files : Files) (root : Path) : Option Path :=
  (fileNames.map root.child).find? files.isFile

/-- What cannot be read because of a limit: too many digits are a problem of the file, and a stack
without room is none. -/
def limitError (path : Path) (limit : Limit) : ConfigError :=
  if limit.concernsStack then .limit limit else .unreadable (.limit limit) path.toText

/-- The value that the text of a configuration file holds. -/
def readText? (depths : Depths) (path : Path) (text : Text) : Except ConfigError Value :=
  if path.suffix = (".toml" : Text) then
    match Toml.read? depths.toml text with
    | .ok table => .ok (.table table)
    | .error (.fault _) => .error (.unreadable .toml path.toText)
    | .error (.limit limit) => .error (limitError path limit)
  else
    let text := Text.unifyNewlines text
    match Json.read? depths.json text with
    | .ok value => .ok value
    | .error (.fault fault) => .error (.unreadable (.json fault text) path.toText)
    | .error (.limit limit) => .error (limitError path limit)

/-- The value that a configuration file holds. -/
def readFile? (depths : Depths) (files : Files) (path : Path) : Except ConfigError Value :=
  match files.read? path with
  | .error e => .error (.unreadable (.file e) path.toText)
  | .ok bytes =>
      match Text.ofUtf8? bytes with
      | .error e => .error (.unreadable (.encoding e) path.toText)
      | .ok text => readText? depths path text

/-- The workspace that a table describes, and the events of reading it. -/
def ofTable (room : Nat) (root source : Path) (data : Table) :
    Except ConfigError Workspace × List Event :=
  match alignEntries? data with
  | .error e => (.error e, [])
  | .ok entries =>
      let events := (Columns.ignoredKeys room entries).map Event.settingIgnored
      let workspace := do
        let columns ← (Columns.ofMapping? room entries).mapError .setting
        let parser ← readParser? room data
        .ok { root, columns, parser, source := some source }
      (workspace, events)

/-- The workspace that a file describes. -/
def ofFile (depths : Depths) (files : Files) (root source : Path) :
    Except ConfigError Workspace × List Event :=
  match readFile? depths files source with
  | .error e => (.error e, [])
  | .ok (.table data) => ofTable depths.shown root source data
  | .ok _ => (.error (.noTable source.toText), [])

/-- The workspace of a directory. The file `config` is read if it is given; otherwise the
directory is searched for one. -/
def load (depths : Depths) (files : Files) (root : Path) (config : Option Path) :
    Except ConfigError Workspace × List Event :=
  let root := files.resolve root
  match config with
  | some path =>
      if files.isFile path then ofFile depths files root path
      else (.error (.notFound path.toText), [])
  | none =>
      match findFile? files root with
      | some path => ofFile depths files root path
      | none => (.ok { root }, [])

end Workspace
end VerilogLayout

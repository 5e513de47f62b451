import VerilogLayout.Column.Setting
import VerilogLayout.Command.Option

/-!
# Requests

A `Request` is what a command line asks for: to format files or to print an instance of a module.
`Request.ofWords?` reads one. A command line without a command asks for nothing; one that cannot be
read, and one that asks for help or the version, ends the reading in the name of the command that
was being read.
-/

namespace VerilogLayout.Command

/-- What both commands can be told. -/
structure CommonOptions where
  config : Option Text := none
  style : Option Text := none
  verbose : Bool := false
  logLevel : Option Text := none
deriving DecidableEq, Repr

/-- How files are to be formatted. -/
structure FormatOptions where
  paths : List Text
  tree : Option Text := none
  check : Bool := false
  diff : Bool := false
  toOutput : Bool := false
deriving DecidableEq, Repr

/-- How an instance is to be printed. -/
structure InstanceOptions where
  path : Text
  name : Option Text := none
  commented : Bool := false
deriving DecidableEq, Repr

/-- What is to be done. -/
inductive Job where
  | format (options : FormatOptions)
  | «instance» (options : InstanceOptions)
deriving DecidableEq, Repr

/-- What a command line asks for. -/
structure Request where
  common : CommonOptions
  job : Job
deriving DecidableEq, Repr

/-- The end of reading, and the name of the command that was being read. -/
structure Halt where
  program : Text
  stop : Stop
deriving DecidableEq, Repr

namespace Request

/-- The name of the program. -/
def program : Text := "hdlalign"

/-- The name and version of the program. -/
def version : Text := program ++ " 0.1.0"

/-- The names of the presets in the order of the alphabet. -/
def styles : List Text :=
  (Columns.presets.map (·.1)).mergeSort Text.le

/-- The names of the severities. -/
def logLevels : List Text :=
  ["debug", "info", "warn", "error"]

/-- The option that asks for help. -/
def helpOption : OptionSpec :=
  { names := ["-h", "--help"], role := .help }

/-- The options of both commands. -/
def commonOptions : List OptionSpec :=
  [helpOption,
    { names := ["--config"], role := .value [] },
    { names := ["--style"], role := .value styles },
    { names := ["--verbose", "-v"], role := .flag },
    { names := ["--log-level"], role := .value logLevels }]

/-- The name of the command that formats. -/
def formatName : Text := "format"

/-- The name of the command that prints an instance. -/
def instanceName : Text := "instance"

/-- The command line up to the command. -/
def mainGrammar : Grammar :=
  { options := [helpOption, { names := ["--version"], role := .version }]
    operands := .command "command" [formatName, instanceName] }

/-- The command line behind the word to format. -/
def formatGrammar : Grammar :=
  { options := commonOptions ++
      [{ names := ["--tree"], role := .value [] },
        { names := ["--check"], role := .flag },
        { names := ["--diff"], role := .flag },
        { names := ["--stdout"], role := .flag }]
    operands := .many }

/-- The command line behind the word for an instance. -/
def instanceGrammar : Grammar :=
  { options := commonOptions ++
      [{ names := ["--name"], role := .value [] },
        { names := ["--commented"], role := .flag }]
    operands := .one "file" }

/-- The common options that were given. -/
def commonGiven (reading : Reading) : CommonOptions :=
  { config := reading.value? "--config"
    style := reading.value? "--style"
    verbose := reading.has "--verbose"
    logLevel := reading.value? "--log-level" }

/-- The job to format. Without paths the working directory is meant. -/
def formatJob (reading : Reading) : Job :=
  let paths := reading.operands.getD []
  .format
    { paths := if paths.isEmpty then ["."] else paths
      tree := reading.value? "--tree"
      check := reading.has "--check"
      diff := reading.has "--diff"
      toOutput := reading.has "--stdout" }

/-- The job to print an instance. -/
def instanceJob (reading : Reading) : Job :=
  .instance
    { path := (reading.operands.getD []).head?.getD []
      name := reading.value? "--name"
      commented := reading.has "--commented" }

/-- A request read from the words behind a command, with the strays among them. -/
def ofCommand? (name : Text) (words : List Text) : Except Halt (Request × List Text) :=
  let (grammar, job) :=
    if name = formatName then (formatGrammar, formatJob) else (instanceGrammar, instanceJob)
  match grammar.read words with
  | .error stop => .error ⟨program ++ " " ++ name, stop⟩
  | .ok reading => .ok ({ common := commonGiven reading, job := job reading }, reading.strays)

/-- The request of a command line, if it has a command. -/
def ofWords? (words : List Text) : Except Halt (Option Request) :=
  match mainGrammar.read words with
  | .error stop => .error ⟨program, stop⟩
  | .ok reading => do
      let (request, strays) ←
        match reading.operands with
        | some (name :: words) => do
            let (request, strays) ← ofCommand? name words
            .ok (some request, strays)
        | _ => .ok (none, [])
      let strays := reading.strays ++ strays
      if strays.isEmpty then .ok request
      else .error ⟨program, .fault (.strays strays)⟩

end Request
end VerilogLayout.Command

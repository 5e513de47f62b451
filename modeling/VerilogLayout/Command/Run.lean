import VerilogLayout.Command.Format
import VerilogLayout.Template.Instance

/-!
# Runs of the program

`run` reads a command line, does what it asks for and says how the run ended. The severity that the
log shows is known once the command line has been read, so a run that ends before has none.
-/

namespace VerilogLayout.Command

/-- Prints an instance of the first module of a file. -/
def printInstance (common : CommonOptions) (options : InstanceOptions) : Cli Unit := do
  let files ← Cli.files
  let path := files.named options.path
  if !files.isFile path then
    Cli.fail <| .command
      { concern := .missingFile, message := "No such file: " ++ options.path }
  let workspace ← loadWorkspace common
  let columns ← chooseColumns common workspace
  let bytes ← Cli.orFail .file (files.read? path)
  let text ← Cli.orFail .encoding (Files.decodeText? bytes)
  let header ← Cli.orFail (fun e => .library e.report) (ModuleHeader.ofSource? text)
  Cli.tell [.templateMade header.name header.parameters.length header.ports.length]
  Cli.write (header.template columns options.name options.commented)

/-- `reportsInstance f` holds for the failures that the command tells the user about. -/
def reportsInstance (failure : Failure) : Bool :=
  match failure with
  | .command _ | .file _ | .encoding _ => true
  | failure => failure.report?.isSome

/-- Does what is asked for. -/
def perform (request : Request) : Cli Unit :=
  match request.job with
  | .format options => Cli.reporting reportsFormat (formatFiles request.common options)
  | .instance options => Cli.reporting reportsInstance (printInstance request.common options)

/-- How a run ended. -/
inductive Outcome where
  | exited (status : Nat)
  | failed (failure : Failure)

/-- A run that has ended. -/
structure Ended where
  outcome : Outcome
  /-- The least severity that the log has shown. -/
  threshold : Option Severity
  console : Console

/-- The end of a run whose command line could not be read or asks for a text of the program. -/
def halted (around : Surroundings) (console : Console) (halt : Halt) : Ended :=
  let ended (status : Nat) (console : Console) : Ended :=
    { outcome := .exited status, threshold := none, console }
  match halt.stop with
  | .help => ended 0 { console with out := console.out ++ around.usage ++ "\n" }
  | .version => ended 0 { console with out := console.out ++ Request.version ++ "\n" }
  | .fault fault =>
      ended 2
        { console with
          err := console.err ++ around.usage ++ "\n" ++ halt.program ++ ": error: " ++
            fault.message ++ "\n" }

/-- Runs the program on a command line. -/
def run (around : Surroundings) (files : Files) (words : List Text) : Ended :=
  let console : Console := { files }
  match Request.ofWords? words with
  | .error halt => halted around console halt
  | .ok none =>
      { outcome := .exited 2
        threshold := some (around.threshold none)
        console := { console with out := around.usage ++ "\n" } }
  | .ok (some request) =>
      let threshold := around.threshold request.common.logLevel
      let terms : RunTerms := { around, threshold, verbose := request.common.verbose }
      let (result, console) := ((perform request).run terms).run.run console
      let outcome :=
        match result with
        | .ok () => .exited 0
        | .error (.exit status) => .exited status
        | .error (.failure failure) => .failed failure
      { outcome, threshold := some threshold, console }

end VerilogLayout.Command

import VerilogLayout.Command.Failure
import VerilogLayout.Event

/-!
# Consoles

A command runs on a `Console`: it reads and writes files, prints to two streams and tells events,
of which the second stream shows those that matter enough. The first stream takes bytes, so it takes
no surrogates; the second shows them by their numbers. `Surroundings` hold what differs from one run
to the next without being the command's doing.
-/

namespace VerilogLayout.Command

/-- What a run finds around it. -/
structure Surroundings where
  /-- The environment variables that are set. -/
  environment : List (Text × Text) := []
  /-- The time in front of a line of the log. -/
  time : Text := []
  /-- What is said about how to use a command. -/
  usage : Text := []
  /-- The lines of the log that say where an error arose. -/
  frames : Text := []
  /-- What a user who wants to see more is told about where an error arose. -/
  trace : Text := []
  /-- What runs programs. -/
  run : Runner := fun files _ _ => (.error .notFound, files)
  /-- How deep values may be nested. -/
  depths : Depths := {}

namespace Surroundings

/-- The words that switch something on. -/
def switchedOn : List Text :=
  ["1", "true", "yes", "on"]

/-- `isOn s name` holds if the variable is set to switch something on. -/
def isOn (around : Surroundings) (name : Text) : Bool :=
  (around.environment.lookup name).any fun value =>
    switchedOn.contains (Text.lower (Text.trim value))

/-- Errors are shown with all that is known of them. -/
def showsAll (around : Surroundings) : Bool :=
  around.isOn "HDLALIGN_VERBOSE" || around.isOn "HDLALIGN_DEBUG"

/-- Errors are passed on to the caller. -/
def passesOn (around : Surroundings) : Bool :=
  around.isOn "HDLALIGN_RERAISE" || around.isOn "HDLALIGN_DEBUG"

/-- The names of the severities that can be asked for. -/
def severityNames : List (Text × Severity) :=
  [("debug", .debug), ("info", .info), ("warn", .warning), ("warning", .warning),
    ("error", .error)]

/-- The least severity that is shown: the one asked for by an option, else by a variable. -/
def threshold (around : Surroundings) (option : Option Text) : Severity :=
  let asked := option <|> around.environment.lookup ("HDLALIGN_LOG_LEVEL" : Text)
  (severityNames.lookup (Text.lower (asked.getD "warn"))).getD Severity.warning

end Surroundings

/-- What a run changes. -/
structure Console where
  files : Files
  out : Text := []
  err : Text := []

/-- How a run ends before its time. -/
inductive Ending where
  | exit (status : Nat)
  | failure (failure : Failure)

/-- What a run goes by. -/
structure RunTerms where
  around : Surroundings
  threshold : Severity := .warning
  verbose : Bool := false

/-- A part of a run. -/
abbrev Cli := ReaderT RunTerms (ExceptT Ending (StateM Console))

namespace Cli

/-- Prints to the second stream. -/
def complain (text : Text) : Cli Unit :=
  modify fun console => { console with err := console.err ++ text }

/-- Prints a line to the second stream. -/
def complainLine (line : Text) : Cli Unit :=
  complain (line ++ "\n")

/-- The lines of the log for an event. -/
def logLines (around : Surroundings) (event : Event) : Text :=
  let line := around.time ++ " - " ++ event.logger ++ " - " ++ event.severity.name ++ " - " ++
    event.message ++ "\n"
  match event.cause? with
  | some cause => line ++ around.frames ++ "\n" ++ cause ++ "\n"
  | none => line

/-- Tells events: those that matter enough are shown. -/
def tell (events : List Event) : Cli Unit := do
  let terms ← read
  complain <| (events.filter fun event =>
    terms.threshold.rank ≤ event.severity.rank).flatMap (logLines terms.around)

/-- The files. -/
def files : Cli Files :=
  return (← get).files

/-- Goes on with other files. -/
def setFiles (files : Files) : Cli Unit :=
  modify fun console => { console with files }

/-- Ends the run. -/
def exit {α : Type} (status : Nat) : Cli α :=
  throw (Ending.exit status)

/-- Lets the run end in a failure. -/
def fail {α : Type} (failure : Failure) : Cli α :=
  throw (Ending.failure failure)

/-- A result, or the failure that keeps it from being one. -/
def orFail {ε α : Type} (failure : ε → Failure) : Except ε α → Cli α
  | .ok a => pure a
  | .error e => fail (failure e)

/-- Prints to the first stream, which takes no surrogates. -/
def write (text : Text) : Cli Unit := do
  let _ ← orFail .surrogates text.toUtf8?
  modify fun console => { console with out := console.out ++ text }

/-- Prints a line to the first stream. -/
def writeLine (line : Text) : Cli Unit :=
  write (line ++ "\n")

/-- Tells the user about a failure and ends the run, unless failures are passed on. -/
def report {α : Type} (failure : Failure) : Cli α := do
  let terms ← read
  if terms.around.passesOn then
    fail failure
  else
    let verbose := terms.verbose || terms.around.showsAll
    let text := failure.text verbose
    complainLine <|
      if verbose then text ++ "\n\nTraceback:\n" ++ terms.around.trace else text
    exit 1

/-- A part of a run whose failures are reported if `reports` says so. -/
def reporting (reports : Failure → Bool) (part : Cli Unit) : Cli Unit := do
  try part
  catch
    | .failure failure => if reports failure then report failure else fail failure
    | .exit status => exit status

end Cli
end VerilogLayout.Command

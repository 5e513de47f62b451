import VerilogLayout.Tree.Make
import VerilogLayout.Workspace.Config

/-!
# Failures of commands

A `CommandError` is an error that a command reports itself, with a code and a hint. A `Failure` is
anything that can end a command; `Failure.text` is what the user is told.
-/

namespace VerilogLayout.Command

/-- What a command's error is about. -/
inductive Concern where
  | general
  | configuration
  | validation
  | missingFile
deriving DecidableEq, Repr

namespace Concern

/-- The code of a concern. -/
def code : Concern → Text
  | .general => "CLI_ERROR"
  | .configuration => "CLI_CONFIG_ERROR"
  | .validation => "CLI_VALIDATION_ERROR"
  | .missingFile => "CLI_FILE_NOT_FOUND"

end Concern

/-- An error that a command reports itself. -/
structure CommandError where
  concern : Concern
  message : Text
  hint : Option Text := none
  /-- A code that replaces the concern's own. -/
  ownCode : Option Text := none
  /-- What else is known, shown to a user who wants to see more. -/
  context : Table := []

namespace CommandError

/-- The code of an error. -/
def code (e : CommandError) : Text :=
  e.ownCode.getD e.concern.code

/-- The lines that an error is shown with. -/
def lines (verbose : Bool) (e : CommandError) : List Text :=
  let first : Text := "Error [" ++ e.code ++ "]: " ++ e.message
  let hint := e.hint.filter fun hint => !hint.isEmpty
  let context : List Text :=
    if verbose && !e.context.isEmpty then
      "\nContext:" :: e.context.map fun (key, value) => "  " ++ key ++ ": " ++ value.plain
    else
      []
  first :: (hint.toList.map (("Hint: " : Text) ++ ·) ++ context)

end CommandError

/-- What can end a command. -/
inductive Failure where
  | command (e : CommandError)
  /-- An error that the library reports. -/
  | library (report : Report)
  | config (e : ConfigError)
  | making (e : MakingError)
  | file (e : FileError)
  | encoding (e : Utf8Error)
  /-- A text has no bytes. -/
  | surrogates (e : SurrogateError)
  /-- A name with a slash in it. -/
  | invalidName (name : Text)

namespace Failure

/-- The report of a failure of the library's own. -/
def report? : Failure → Option Report
  | .library report => some report
  | .config e => e.report?
  | .making e => e.report?
  | .command _ | .file _ | .encoding _ | .surrogates _ | .invalidName _ => none

/-- The message of a failure. -/
def message : Failure → Text
  | .command e => e.message
  | .library report => report.message
  | .config e => e.message
  | .making e => e.message
  | .file e => e.message
  | .encoding e => e.message
  | .surrogates e => e.message
  | .invalidName name => "Invalid name " ++ Text.quoted name

/-- An error of some kind that has no form of its own. -/
def plainText (kind message : Text) : Text :=
  "Error: " ++ kind ++ ": " ++ message

/-- The kind of a failure that has no form of its own. -/
def kind : Failure → Text
  | .file e => e.problem.kind
  | .encoding _ => "UnicodeDecodeError"
  | .surrogates _ => "UnicodeEncodeError"
  | .config e => e.kind
  | .making e => e.kind
  | .command _ | .library _ | .invalidName _ => "ValueError"

/-- What the user is told. -/
def text (verbose : Bool) (failure : Failure) : Text :=
  match failure, failure.report? with
  | .command e, _ => List.intercalate "\n" (e.lines verbose)
  | _, some report => "Error: " ++ report.format
  | failure, none => plainText failure.kind failure.message

end Failure
end VerilogLayout.Command

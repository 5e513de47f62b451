import VerilogLayout.Event
import VerilogLayout.Number.Spelling
import VerilogLayout.Program.Basic
import VerilogLayout.Tree.Load

/-!
# Making trees

A `TreeMaker` is a program that writes the tree of a source file to a file. `TreeMaker.make` runs it
and loads what it has written; `TreeMaker.makeTemporary` lets it write into the directory for
temporary files, which is empty again afterwards. A tree left over from an earlier run is removed
first, so it can never be taken for the new one.
-/

namespace VerilogLayout

/-- Why a program has made no tree. -/
inductive MakingProblem where
  | notFound (program : Text)
  | timedOut (seconds : Float)
  | notStarted (cause : FileError)
  | failed (status : Int) (lastWords : Option Text)
  | notWritten (output : Text)

namespace MakingProblem

/-- The problem in words. -/
def message : MakingProblem → Text
  | .notFound program => "Parser executable not found: " ++ program
  | .timedOut seconds => "Parser timed out after " ++ Number.brief.write seconds ++ "s"
  | .notStarted cause => "Parser could not be started: " ++ cause.message
  | .failed status lastWords =>
      "Parser exited with status " ++ Text.ofInt status ++
        match lastWords with
        | some words => ": " ++ words
        | none => []
  | .notWritten output => "Parser did not write " ++ output

/-- The hint of a problem. -/
def hint? : MakingProblem → Option Text
  | .notFound _ => some "Install the parser or remove [parser].command from the configuration."
  | .failed _ _ => some "The source may contain a syntax error."
  | .timedOut _ | .notStarted _ | .notWritten _ => none

end MakingProblem

/-- Why there is no tree. -/
inductive MakingError where
  | program (problem : MakingProblem) (source : Text)
  | loading (e : LoadError)
  /-- What stands in the way of the new tree cannot be removed. -/
  | inTheWay (e : FileError)
  /-- The path is no name of a file. -/
  | path (fault : NameFault)

namespace MakingError

/-- What an error says, if it concerns the tree alone. -/
def report? : MakingError → Option Report
  | .program problem source =>
      some
        { topic := .treeMaking
          message := problem.message
          location := { path := some source }
          hint := problem.hint? }
  | .loading (.tree e) => some e.report
  | .loading (.encoding _) | .loading (.limit _) | .inTheWay _ | .path _ => none

/-- The message of an error that is about something else. -/
def message : MakingError → Text
  | .program problem _ => problem.message
  | .loading (.tree e) => e.report.message
  | .loading (.encoding e) => e.message
  | .loading (.limit limit) => limit.message
  | .inTheWay e => e.message
  | .path fault => fault.message

/-- The name of the kind of an error that is about something else. -/
def kind : MakingError → Text
  | .program _ _ | .loading (.tree _) => []
  | .loading (.encoding _) => "UnicodeDecodeError"
  | .loading (.limit limit) => limit.kind
  | .inTheWay e => e.problem.kind
  | .path fault => fault.kind

end MakingError

/-- A program that makes trees. -/
structure TreeMaker where
  command : List Text
  /-- The time that the program has. -/
  seconds : Float := 30.0
  command_ne_nil : command ≠ []

namespace TreeMaker

/-- The message about a command without words. -/
def emptyCommand : Text := "TreeGenerator requires a non-empty command"

/-- The maker with a command, which must not be empty. -/
def ofCommand? (command : List Text) (seconds : Float) : Option TreeMaker :=
  if h : command ≠ [] then some { command, seconds, command_ne_nil := h } else none

/-- The command for a source and an output. -/
def commandFor (maker : TreeMaker) (source output : Path) : List Text :=
  maker.command.map fun part =>
    Text.replace "\x7boutput\x7d" output.toText (Text.replace "\x7bsource\x7d" source.toText part)

/-- The first word of a command. -/
def program (command : List Text) : Text :=
  command.head?.getD []

/-- The events of loading a tree. -/
def loaded (path : Path) (node : Node) : List Event :=
  [.treeLoaded path.toText node.name]

/-- The tree that the program has written, if it has ended well. -/
def result (room : Nat) (maker : TreeMaker) (command : List Text) (source output : Path)
    (answer : Except RunProblem Finished) (files : Files) : Except MakingError Node :=
  let fail (problem : MakingProblem) : Except MakingError Node :=
    .error (.program problem source.toText)
  match answer with
  | .error .notFound => fail (.notFound (program command))
  | .error .timedOut => fail (.timedOut maker.seconds)
  | .error (.notStarted cause) => fail (.notStarted cause)
  | .ok finished =>
      if finished.status ≠ 0 then
        fail (.failed finished.status finished.lastWords)
      else if !files.isFile output then
        fail (.notWritten output.toText)
      else
        (Node.load? room files output).mapError .loading

/-- The files without an old tree. -/
def clear? (files : Files) (output : Path) : Except FileError Files :=
  if files.exists? output then files.remove? output else .ok files

/-- The tree of a source, with the events and the files afterwards. -/
def make (run : Runner) (room : Nat) (maker : TreeMaker) (files : Files) (source output : Path) :
    Except MakingError Node × List Event × Files :=
  -- What is loaded below can only be what the program has written.
  match clear? files output with
  | .error e => (.error (.inTheWay e), [], files)
  | .ok files =>
      let command := maker.commandFor source output
      let (answer, files) := run files maker.seconds command
      let wanted := Event.treeWanted command
      match maker.result room command source output answer files with
      | .ok node => (.ok node, wanted :: loaded output node, files)
      | .error e => (.error e, [wanted], files)

/-- The tree of a source, written to the directory for temporary files under the source's name
with `suffix` behind it. -/
def makeTemporary (run : Runner) (room : Nat) (maker : TreeMaker) (files : Files) (source : Path)
    (suffix : Text) : Except MakingError Node × List Event × Files :=
  let output := (Path.ofText (source.name ++ suffix))
  let (tree, events, files) :=
    maker.make run room files source { output with anchor := .known files.scratch }
  (tree, events, files.clearScratch)

end TreeMaker
end VerilogLayout

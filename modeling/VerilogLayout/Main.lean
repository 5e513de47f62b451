import VerilogLayout.Command.Run

/-!
# The program

`main` collects the files that a run may see, hands them to `Command.run`, writes back the files
that the run has changed and prints what it prints. The files are those that a word of the command
line names, each with the tree beside it, the configuration files, and those that the standard
input names, one to a line; a directory is searched among these. No programs are run: a tree has to
stand beside its source.
-/

open VerilogLayout

namespace VerilogLayout.Session

/-- How the program is used. -/
def usage : String :=
  "usage: hdlalign [-h] [--version] format|instance [options] [files]\n\n" ++
  "  format    align Verilog sources: [--tree FILE] [--check] [--diff] [--stdout]\n" ++
  "  instance  print an instance of a module: [--name NAME] [--commented]\n\n" ++
  "Both take [--config FILE] [--style NAME] [--verbose] [--log-level LEVEL]."

/-- The environment variables that a run looks at. -/
def variableNames : List String :=
  ["HDLALIGN_VERBOSE", "HDLALIGN_DEBUG", "HDLALIGN_RERAISE", "HDLALIGN_LOG_LEVEL"]

/-- The names of files that a word of a command line may stand for. -/
def namedBy (word : Text) : List Text :=
  let name := (word.dropWhile (· ≠ .char '=')).tail
  let names := if name.isEmpty then [word] else [word, name]
  names.flatMap fun name => [name, name ++ ParserSettings.standard.treeSuffix]

/-- The string that shows a text. -/
def string (text : Text) : String :=
  String.ofList text.shown

/-- The bytes of a file, if it can be read. -/
def bytes? (name : Text) : IO (Option Bytes) := do
  try
    pure (some (← IO.FS.readBinFile (string name)).toList)
  catch _ =>
    pure none

/-- The files with the one that a name stands for, if it can be read. -/
def addFile (files : Files) (name : Text) : IO Files := do
  match ← bytes? name with
  | some bytes => pure (files.add (files.named name) (.file bytes))
  | none => pure files

/-- The lines of the standard input, unless somebody types them. -/
def inputLines : IO (List Text) := do
  let input ← IO.getStdin
  if ← input.isTty then
    pure []
  else
    match Text.ofUtf8? (← input.readBinToEnd).toList with
    | .ok text => pure (Text.lines text)
    | .error _ => pure []

/-- The environment variables of a run that are set. -/
def environment : IO (List (Text × Text)) := do
  let found : List (Option (Text × Text)) ← variableNames.mapM fun name => do
    pure ((← IO.getEnv name).map fun value => ((name : Text), (value : Text)))
  pure (found.filterMap id)

/-- What a run finds around it. -/
def surroundings : IO Command.Surroundings := do
  pure
    { environment := ← environment
      time := Text.ofNat (← IO.monoMsNow)
      usage := usage
      frames := "The place of the error is not known."
      trace := "not recorded" }

/-- Prints a text to a stream. -/
def print (stream : IO.FS.Stream) (text : Text) : IO Unit :=
  stream.putStr (string text)

/-- The status that a run ends with; a failure that was passed on is told first. -/
def finish (outcome : Command.Outcome) : IO UInt32 := do
  match outcome with
  | .exited status => pure status.toUInt32
  | .failed failure =>
      print (← IO.getStderr) (failure.text true ++ "\n")
      pure 1

end VerilogLayout.Session

/-- Runs the program on the words of the command line. -/
def main (words : List String) : IO UInt32 := do
  let words : List Text := words.map fun (word : String) => (word : Text)
  let root : Text := (← IO.getEnv "PWD").getD "."
  let empty : Files := { root, scratch := root ++ "/.hdlalign" }
  let names := Workspace.fileNames ++ words.flatMap Session.namedBy ++ (← Session.inputLines)
  let files ← names.foldlM Session.addFile empty
  let ended := Command.run (← Session.surroundings) files words
  for (path, bytes) in files.changes ended.console.files do
    IO.FS.writeBinFile (Session.string path.toText) (ByteArray.mk bytes.toArray)
  Session.print (← IO.getStdout) ended.console.out
  Session.print (← IO.getStderr) ended.console.err
  Session.finish ended.outcome

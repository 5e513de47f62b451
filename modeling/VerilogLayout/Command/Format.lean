import VerilogLayout.Command.Console
import VerilogLayout.Command.Request
import VerilogLayout.Diff.Unified
import VerilogLayout.Document.Format

/-!
# The command that formats

`formatFiles` formats the sources that are named, one after the other. Each is read, formatted with
the tree that belongs to it, and written back, printed, compared or only counted, as the options
say. A source that cannot be read or rendered is counted as an error and left alone; the rest are
still formatted.
-/

namespace VerilogLayout.Command

/-- What the names of sources end in. -/
def sourceSuffixes : List Text :=
  [".v", ".vh", ".sv"]

/-! ## Settings -/

/-- The workspace of the working directory, or of a configuration file that is given. -/
def loadWorkspace (common : CommonOptions) : Cli Workspace := do
  let files ← Cli.files
  let config := (common.config.filter fun path => !path.isEmpty).map files.named
  let depths := (← read).around.depths
  let (workspace, events) := Workspace.load depths files {} config
  Cli.tell events
  match workspace with
  | .ok workspace => pure workspace
  | .error e =>
      match e.report? with
      | some report =>
          Cli.fail <| .command
            { concern := .configuration
              message := report.format
              hint := some "Fix the configuration file or pass another with --config" }
      | none => Cli.fail (.config e)

/-- The columns of a workspace, or of a preset that is given. -/
def chooseColumns (common : CommonOptions) (workspace : Workspace) : Cli Columns :=
  match common.style.filter fun style => !style.isEmpty with
  | none => pure workspace.columns
  | some style =>
      match Columns.ofPreset? style with
      | .ok columns => pure columns
      | .error e =>
          Cli.fail <| .command
            { concern := .configuration
              message := e.message
              hint := some
                ("Choose one of: " ++ List.intercalate ", " (Columns.presets.map (·.1))) }

/-! ## Sources -/

/-- Lists of names in the order of their first difference. -/
def namesLe : List Text → List Text → Bool
  | [], _ => true
  | _ :: _, [] => false
  | a :: as, b :: bs => if a = b then namesLe as bs else Text.le a b

/-- Everything below a directory whose name ends in `suffix`, in the order of the names on the
way. -/
def searchDirectory (files : Files) (directory : Path) (suffix : Text) : List Path :=
  match files.locate directory with
  | .error _ => []
  | .ok place =>
      let found := (files.below place).filterMap fun (names, _) =>
        if Text.endsWith (names.getLast?.getD []) suffix then some names else none
      (found.mergeSort namesLe).map fun names =>
        { directory with names := directory.names ++ names }

/-- The sources that a path names: itself, or those below it. -/
def sourcesAt (text : Text) : Cli (List Path) := do
  let files ← Cli.files
  let path := files.named text
  if files.isFile path then
    if sourceSuffixes.contains path.suffix then
      pure [path]
    else
      Cli.complainLine ("Warning: Skipping " ++ text ++ " (not a .v/.vh/.sv file)")
      pure []
  else if files.isDirectory path then
    pure (sourceSuffixes.flatMap (searchDirectory files path))
  else
    Cli.fail <| .command
      { concern := .missingFile, message := "No such file or directory: " ++ text }

/-- The sources that several paths name. -/
def sourcesOf (paths : List Text) : Cli (List Path) :=
  return (← paths.mapM sourcesAt).flatten

/-! ## One source -/

/-- Where the tree of a source comes from: from the file that is given, from the program that makes
trees, or from a file beside the source. -/
def treeSourceFor (workspace : Workspace) (tree : Option Path) (source : Path) :
    Cli TreeSource := do
  match tree with
  | some path => pure (.file path)
  | none =>
      match ← made with
      | some node => pure (.given node)
      | none =>
          let name := source.name ++ workspace.parser.treeSuffix
          if !Path.isFileName name then
            Cli.fail (.invalidName name)
          else
            let sibling := source.withName name
            pure (if (← Cli.files).isFile sibling then .file sibling else .absent)
where
  /-- The tree that the program makes, if there is a program and it makes one. -/
  made : Cli (Option Node) := do
    let parser := workspace.parser
    match TreeMaker.ofCommand? parser.command parser.timeout with
    | none => pure none
    | some maker =>
        let around := (← read).around
        let (made, events, files) :=
          maker.makeTemporary around.run around.depths.made (← Cli.files) source parser.treeSuffix
        Cli.setFiles files
        Cli.tell events
        match made with
        | .ok node =>
            let (tokens, comments) := node.summary
            Cli.tell [.treeMade source.toText node.name tokens comments]
            pure (some node)
        | .error e =>
            match e.report? with
            | some report => do
                Cli.tell [.treeMissing report]
                pure none
            | none => Cli.fail (.making e)

/-- The text of a source. -/
def readSource? (files : Files) (source : Path) : Except Text Text :=
  match files.read? source with
  | .error e => .error e.message
  | .ok bytes => (Files.decodeText? bytes).mapError Utf8Error.message

/-- What came of the sources so far. -/
structure Tally where
  changed : Nat := 0
  errors : Nat := 0
deriving DecidableEq, Repr

/-- The difference that formatting makes to a source. -/
def sourceDiff (source : Path) (before after : Text) : Text :=
  Diff.unified (source.toText ++ " (original)") (source.toText ++ " (formatted)") before after

/-- Writes a text to a source. A text with surrogates has no bytes, which is found out when the file
has been emptied. -/
def writeSource (source : Path) (text : Text) : Cli Unit := do
  let encoded := text.toUtf8?
  let bytes := encoded.toOption.getD []
  Cli.setFiles (← Cli.orFail .file ((← Cli.files).write? source bytes))
  let _ ← Cli.orFail .surrogates encoded

/-- Does with a formatted source what the options say. -/
def deliver (options : FormatOptions) (source : Path) (before : Text) (formatted : Formatted)
    (tally : Tally) : Cli Tally := do
  let about := source.toText ++ " (" ++ formatted.mode.name ++ ")"
  if options.toOutput then
    Cli.write formatted.text
    pure tally
  else if !formatted.changed then
    pure tally
  else
    let tally := { tally with changed := tally.changed + 1 }
    if options.check then
      Cli.writeLine ("Would reformat " ++ about)
    else if options.diff then
      Cli.write (sourceDiff source before formatted.text)
    else
      writeSource source formatted.text
      Cli.writeLine ("Formatted " ++ about)
    pure tally

/-- Formats one source. -/
def formatSource (options : FormatOptions) (workspace : Workspace) (columns : Columns)
    (tree : Option Path) (tally : Tally) (source : Path) : Cli Tally := do
  match readSource? (← Cli.files) source with
  | .error message =>
      Cli.complainLine ("Error reading " ++ source.toText ++ ": " ++ message)
      pure { tally with errors := tally.errors + 1 }
  | .ok text =>
      let treeSource ← treeSourceFor workspace tree source
      let depths := (← read).around.depths
      let (formatted, events, files) :=
        formatDocument depths columns (← Cli.files) text (some source.toText) treeSource
      Cli.setFiles files
      Cli.tell events
      let formatted ← Cli.orFail .making formatted
      if formatted.succeeded then
        Cli.tell (formatted.warnings.map (Event.warned source.toText))
        deliver options source text formatted tally
      else
        Cli.complainLine ("Error formatting " ++ source.toText ++ ":")
        formatted.errors.forM fun e => Cli.complainLine ("  " ++ e)
        pure { tally with errors := tally.errors + 1 }

/-! ## All sources -/

/-- Says how many errors there were, if any. -/
def tellErrors (tally : Tally) : Cli Unit :=
  if 0 < tally.errors then
    Cli.complainLine ("Encountered " ++ Text.ofNat tally.errors ++ " error(s)")
  else
    pure ()

/-- Says what came of the sources. Changes count as a failure only where they are checked for. -/
def conclude (options : FormatOptions) (tally : Tally) : Cli Unit := do
  let changed := Text.ofNat tally.changed
  if options.check then
    if 0 < tally.changed then
      Cli.writeLine (changed ++ " file(s) would be reformatted")
    tellErrors tally
    if 0 < tally.changed ∨ 0 < tally.errors then
      Cli.exit 1
    Cli.writeLine "All files are already aligned"
  else if 0 < tally.errors then
    tellErrors tally
    Cli.exit 1
  else if 0 < tally.changed ∧ !options.diff ∧ !options.toOutput then
    Cli.writeLine ("Formatted " ++ changed ++ " file(s) successfully")

/-- Formats the sources that the options name. -/
def formatFiles (common : CommonOptions) (options : FormatOptions) : Cli Unit := do
  let workspace ← loadWorkspace common
  let columns ← chooseColumns common workspace
  let sources ← sourcesOf options.paths
  if sources.isEmpty then
    Cli.writeLine "No files to format"
  else
    let files ← Cli.files
    let tree := (options.tree.filter fun path => !path.isEmpty).map files.named
    if tree.isSome ∧ sources.length ≠ 1 then
      Cli.fail <| .command
        { concern := .validation
          message := "--tree can only be used with a single source file"
          hint := some "Run the command once per file or store trees next to the sources" }
    let tally ← sources.foldlM (formatSource options workspace columns tree) {}
    conclude options tally

/-- `reportsFormat f` holds for the failures that the command tells the user about. -/
def reportsFormat (failure : Failure) : Bool :=
  match failure with
  | .command _ => true
  | failure => failure.report?.isSome

end VerilogLayout.Command

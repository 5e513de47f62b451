import VerilogLayout.Command.Format
import VerilogLayout.Proofs.Command.Console
import VerilogLayout.Proofs.Files.Store

/-!
# What is to be formatted

Before a source is touched a run finds out what to format and with which columns. `workspaceOf?`,
`columnsOf?` and `sourcesOf?` say what it finds, as functions of the files, and
`answers_loadWorkspace`, `answers_chooseColumns` and `answers_sourcesOf` say that the run does so
without changing anything.
-/

namespace VerilogLayout.Command

/-! ## Settings -/

/-- The configuration file that the options name. -/
def configOf (files : Files) (common : CommonOptions) : Option Path :=
  (common.config.filter fun path => !path.isEmpty).map files.named

/-- The failure of a run whose configuration cannot be had. -/
def configFailure (e : ConfigError) : Failure :=
  match e.report? with
  | some report =>
      .command
        { concern := .configuration
          message := report.format
          hint := some ("Fix the configuration file or pass another with --config" : Text) }
  | none => .config e

/-- The workspace of a run. -/
def workspaceOf? (depths : Depths) (files : Files) (common : CommonOptions) :
    Except Failure Workspace :=
  (Workspace.load depths files {} (configOf files common)).1.mapError configFailure

/-- The columns of a run. -/
def columnsOf? (common : CommonOptions) (workspace : Workspace) : Except Failure Columns :=
  match common.style.filter fun style => !style.isEmpty with
  | none => .ok workspace.columns
  | some style =>
      (Columns.ofPreset? style).mapError fun e =>
        .command
          { concern := .configuration
            message := e.message
            hint := some ("Choose one of: " ++ List.intercalate ", " (Columns.presets.map (·.1))) }

variable {terms : RunTerms} {console : Console}

theorem answers_loadWorkspace (common : CommonOptions) :
    Answers (loadWorkspace common) terms console
      (workspaceOf? terms.around.depths console.files common) := by
  unfold loadWorkspace workspaceOf? configOf
  refine Answers.bind_ok .files fun err => Answers.bind_ok .read fun err => ?_
  dsimp only
  generalize Workspace.load terms.around.depths console.files {} _ = loaded
  obtain ⟨result, events⟩ := loaded
  refine Answers.bind_ok (.tell events) fun err' => ?_
  cases result with
  | ok workspace => exact .pure workspace
  | error e =>
      show Answers _ _ _ (.error (configFailure e))
      unfold configFailure
      dsimp only
      cases e.report? with
      | some report => exact .fail _
      | none => exact .fail _

theorem answers_chooseColumns (common : CommonOptions) (workspace : Workspace) :
    Answers (chooseColumns common workspace) terms console (columnsOf? common workspace) := by
  unfold chooseColumns columnsOf?
  generalize common.style.filter _ = style?
  cases style? with
  | none => exact .pure workspace.columns
  | some style =>
      dsimp only
      cases Columns.ofPreset? style with
      | ok columns => exact .pure columns
      | error e => exact .fail _

/-! ## Sources -/

/-- The sources that a path names. -/
def sourcesAt? (files : Files) (text : Text) : Except Failure (List Path) :=
  let path := files.named text
  if files.isFile path then
    .ok (if sourceSuffixes.contains path.suffix then [path] else [])
  else if files.isDirectory path then
    .ok (sourceSuffixes.flatMap (searchDirectory files path))
  else
    .error <| .command
      { concern := .missingFile, message := "No such file or directory: " ++ text }

/-- The sources that several paths name. -/
def sourcesOf? (files : Files) (paths : List Text) : Except Failure (List Path) :=
  return (← paths.mapM (sourcesAt? files)).flatten

theorem answers_sourcesAt (text : Text) :
    Answers (sourcesAt text) terms console (sourcesAt? console.files text) := by
  unfold sourcesAt sourcesAt?
  refine Answers.bind_ok .files fun err => ?_
  dsimp only
  split
  · split
    · exact .pure _
    · exact Answers.bind_ok (.complain _) fun _ => .pure []
  · split
    · exact .pure _
    · exact .fail _

theorem answers_sourcesOf (paths : List Text) :
    Answers (sourcesOf paths) terms console (sourcesOf? console.files paths) :=
  (Answers.mapM (fun text _ => answers_sourcesAt text) paths).bind fun _ _ => .pure _

end VerilogLayout.Command

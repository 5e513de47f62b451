import VerilogLayout.Command.Run
import VerilogLayout.Proofs.Command.Source

/-!
# Whole runs

`plan?` says what a run formats and with what, and `conclusion` how the run ends and what it leaves.
`run_conclusion` is the result: a run of the program that is asked to format, and has no program for
trees, comes to this conclusion.
-/

namespace VerilogLayout.Command

/-! ## Plans -/

/-- What a run formats, and what with. -/
structure Plan where
  settings : Settings
  sources : List Path

/-- The failure of a run that has one tree for another number of sources. -/
def treeFailure : Failure :=
  .command
    { concern := .validation
      message := "--tree can only be used with a single source file"
      hint := some ("Run the command once per file or store trees next to the sources" : Text) }

/-- The tree file that the options give. -/
def treeOf (files : Files) (options : FormatOptions) : Option Path :=
  (options.tree.filter fun path => !path.isEmpty).map files.named

/-- The settings that a workspace, its columns and the options make. -/
def settingsOf (depths : Depths) (files : Files) (options : FormatOptions) (workspace : Workspace)
    (columns : Columns) : Settings :=
  { depths, columns, tree := treeOf files options, treeSuffix := workspace.parser.treeSuffix }

/-- The plan of a run. -/
def plan? (depths : Depths) (files : Files) (common : CommonOptions) (options : FormatOptions) :
    Except Failure Plan := do
  let workspace ← workspaceOf? depths files common
  let columns ← columnsOf? common workspace
  let sources ← sourcesOf? files options.paths
  if sources ≠ [] ∧ (treeOf files options).isSome ∧ sources.length ≠ 1 then
    .error treeFailure
  else
    .ok { settings := settingsOf depths files options workspace columns, sources }

/-! ## Conclusions -/

namespace Tally

variable (options : FormatOptions) (tally : Tally)

/-- The status that the sources are worth. -/
def status : Nat :=
  if 0 < tally.errors ∨ (options.check ∧ 0 < tally.changed) then 1 else 0

/-- What is said about the sources in the end. -/
def summary : Text :=
  let changed := Text.ofNat tally.changed
  if options.check then
    (if 0 < tally.changed then changed ++ " file(s) would be reformatted" ++ "\n" else []) ++
      (if tally.status options = 0 then ("All files are already aligned\n" : Text) else [])
  else if tally.status options = 0 ∧ 0 < tally.changed ∧ !options.diff ∧ !options.toOutput then
    "Formatted " ++ changed ++ " file(s) successfully" ++ "\n"
  else
    []

end Tally

/-- How a run ends and what it leaves, but for the complaints. -/
structure Conclusion where
  /-- The status, or the failure that ends the run. -/
  result : Except Failure Nat
  files : Files
  out : Text := []

/-- The conclusion of a run that has got to where it gets with its sources. -/
def concluded (options : FormatOptions) : Option Failure × Progress → Conclusion
  | (some failure, progress) =>
      { result := .error failure, files := progress.files, out := progress.out }
  | (none, progress) =>
      { result := .ok (progress.tally.status options)
        files := progress.files
        out := progress.out ++ progress.tally.summary options }

/-- The conclusion of a run. -/
def conclusion (depths : Depths) (files : Files) (common : CommonOptions)
    (options : FormatOptions) : Conclusion :=
  match plan? depths files common options with
  | .error failure => { result := .error failure, files }
  | .ok plan =>
      if plan.sources = [] then
        { result := .ok 0, files, out := "No files to format\n" }
      else
        concluded options (({ files } : Progress).visit plan.settings options plan.sources)

/-- How a run with this result ends. -/
def outcomeOf (around : Surroundings) : Except Failure Nat → Outcome
  | .ok status => .exited status
  | .error failure =>
      if reportsFormat failure ∧ ¬ around.passesOn then .exited 1 else .failed failure

/-! ## What a run comes to -/

/-- The end of a part with this result. -/
def endOf : Except Failure Nat → Except Ending Unit
  | .ok 0 => .ok ()
  | .ok status => .error (.exit status)
  | .error failure => .error (.failure failure)

variable {terms : RunTerms} {console : Console}

/-- A number of files is printed without surrogates. -/
theorem isEncodable_count (front : String) (n : Nat) (back : String) :
    Text.IsEncodable ((front : Text) ++ Text.ofNat n ++ back) :=
  Text.isEncodable_append.2
    ⟨Text.isEncodable_append.2 ⟨Text.isEncodable_map_char _, Text.isEncodable_map_char _⟩,
      Text.isEncodable_map_char _⟩

/-- The last words of a run and its status depend on the counts alone. -/
theorem ends_conclude (options : FormatOptions) (tally : Tally) :
    Ends (conclude options tally) terms console (endOf (.ok (tally.status options)))
      console.files (console.out ++ tally.summary options) := by
  have htell : ∀ console, Answers (tellErrors tally) terms console (.ok ()) := by
    intro console
    unfold tellErrors
    split
    · exact .complain _
    · exact .pure ()
  unfold conclude Tally.summary
  dsimp only
  -- The status is decided first: under `--check` it also decides which message is printed.
  by_cases hbad : 0 < tally.errors ∨ (options.check ∧ 0 < tally.changed)
  · have hstatus : tally.status options = 1 := if_pos hbad
    rw [hstatus]
    by_cases hcheck : options.check
    · have hend : 0 < tally.changed ∨ 0 < tally.errors := by
        obtain herrors | ⟨-, hchanged⟩ := hbad
        · exact .inr herrors
        · exact .inl hchanged
      rw [if_pos hcheck, if_pos hcheck, if_neg Nat.one_ne_zero, List.append_nil]
      by_cases hchanged : 0 < tally.changed
      · rw [if_pos hchanged, if_pos hchanged, if_pos hend]
        refine (Ends.writeLine (isEncodable_count "" _ _)).bind_ok fun _ => ?_
        exact Ends.bind_ok (htell _) fun _ => Ends.bind_error (.exit 1)
      · rw [if_neg hchanged, if_neg hchanged, if_pos hend, List.append_nil]
        exact Ends.bind_ok (htell _) fun _ => Ends.bind_error (.exit 1)
    · have herrors : 0 < tally.errors := by simpa [hcheck] using hbad
      rw [if_neg hcheck, if_neg hcheck, if_pos herrors, if_neg (by simp), List.append_nil]
      exact Ends.bind_ok (htell _) fun _ => .exit 1
  · have hstatus : tally.status options = 0 := if_neg hbad
    obtain ⟨herrors, hchanged⟩ := not_or.1 hbad
    rw [hstatus]
    by_cases hcheck : options.check
    · have hchanged : ¬ 0 < tally.changed := fun h => hchanged ⟨hcheck, h⟩
      have hend : ¬ (0 < tally.changed ∨ 0 < tally.errors) := not_or.2 ⟨hchanged, herrors⟩
      rw [if_pos hcheck, if_pos hcheck, if_neg hchanged, if_neg hchanged, if_neg hend, if_pos rfl,
        List.nil_append]
      exact Ends.bind_ok (htell _) fun _ => .writeLine (Text.isEncodable_map_char _)
    · rw [if_neg hcheck, if_neg hcheck, if_neg herrors]
      simp only [true_and]
      split
      · exact .writeLine (isEncodable_count "Formatted " _ _)
      · rw [List.append_nil]
        exact .pure ()

section
variable {depths : Depths} {files : Files} {common : CommonOptions} (options : FormatOptions)

/-- A run without a program for trees ends its way through the sources with its last words. -/
theorem ends_sources {settings : Settings} {workspace : Workspace}
    (hdepths : terms.around.depths = settings.depths) (hprogram : workspace.parser.command = [])
    (hsuffix : workspace.parser.treeSuffix = settings.treeSuffix) (sources : List Path)
    (err : Text) :
    let conclusion := concluded options (({ files } : Progress).visit settings options sources)
    Ends (sources.foldlM (formatSource options workspace settings.columns settings.tree) {} >>=
        conclude options) terms { files, err } (endOf conclusion.result) conclusion.files
      conclusion.out := by
  have hvisit : Reaches _ terms _ (({ files } : Progress).visit settings options sources) :=
    reaches_foldlM options hdepths hprogram hsuffix sources
  generalize ({ files } : Progress).visit settings options sources = visited at hvisit ⊢
  obtain ⟨_ | failure, progress⟩ := visited
  · exact (hvisit err).bind_ok fun _ => ends_conclude options progress.tally
  · exact (hvisit err).bind_error

/-- What is planned with a workspace, columns and sources. A given tree is for one source only. -/
theorem plan?_eq {workspace : Workspace} {columns : Columns} {sources : List Path}
    (hworkspace : workspaceOf? depths files common = .ok workspace)
    (hcolumns : columnsOf? common workspace = .ok columns)
    (hsources : sourcesOf? files options.paths = .ok sources) :
    plan? depths files common options =
      if sources ≠ [] ∧ (treeOf files options).isSome ∧ sources.length ≠ 1 then .error treeFailure
      else .ok { settings := settingsOf depths files options workspace columns, sources } := by
  simp only [plan?, hworkspace, hcolumns, hsources, bind, Except.bind]

/-- A run without a program for trees comes to its conclusion. -/
theorem ends_formatFiles (hdepths : terms.around.depths = depths)
    (hprogram : ∀ workspace, workspaceOf? depths files common = .ok workspace →
      workspace.parser.command = []) (err : Text) :
    let conclusion := conclusion depths files common options
    Ends (formatFiles common options) terms { files, err } (endOf conclusion.result)
      conclusion.files conclusion.out := by
  have hworkspace : Answers (loadWorkspace common) terms { files, err }
      (workspaceOf? depths files common) :=
    hdepths ▸ answers_loadWorkspace common
  have hcolumns : ∀ workspace err, Answers (chooseColumns common workspace) terms { files, err }
      (columnsOf? common workspace) := fun workspace _ => answers_chooseColumns common workspace
  have hsources : ∀ err, Answers (sourcesOf options.paths) terms { files, err }
      (sourcesOf? files options.paths) := fun _ => answers_sourcesOf options.paths
  -- The run fails at the first thing that it does not find, and so does its plan.
  unfold formatFiles conclusion
  cases hloaded : workspaceOf? depths files common with
  | error failure =>
      have hplan : plan? depths files common options = .error failure := by
        simp only [plan?, hloaded, bind, Except.bind]
      rw [hloaded] at hworkspace
      rw [hplan]
      exact Ends.bind_error hworkspace
  | ok workspace =>
      rw [hloaded] at hworkspace
      refine Ends.bind_ok hworkspace fun err => ?_
      replace hcolumns := hcolumns workspace
      cases hchosen : columnsOf? common workspace with
      | error failure =>
          have hplan : plan? depths files common options = .error failure := by
            simp only [plan?, hloaded, hchosen, bind, Except.bind]
          rw [hchosen] at hcolumns
          rw [hplan]
          exact Ends.bind_error (hcolumns err)
      | ok columns =>
          rw [hchosen] at hcolumns
          refine Ends.bind_ok (hcolumns err) fun err => ?_
          cases hfound : sourcesOf? files options.paths with
          | error failure =>
              have hplan : plan? depths files common options = .error failure := by
                simp only [plan?, hloaded, hchosen, hfound, bind, Except.bind]
              rw [hfound] at hsources
              rw [hplan]
              exact Ends.bind_error (hsources err)
          | ok sources =>
              rw [hfound] at hsources
              refine Ends.bind_ok (hsources err) fun err => ?_
              have hplan := plan?_eq options hloaded hchosen hfound
              by_cases hnone : sources = []
              · rw [hplan.trans (if_neg fun h => h.1 hnone), if_pos (by rw [hnone]; rfl)]
                dsimp only
                rw [if_pos hnone]
                exact .writeLine (Text.isEncodable_map_char _)
              rw [if_neg (by simpa using hnone)]
              refine Ends.bind_ok Answers.files fun err => ?_
              by_cases htree : (treeOf files options).isSome ∧ sources.length ≠ 1
              · rw [hplan.trans (if_pos ⟨hnone, htree⟩)]
                show Ends (if (treeOf files options).isSome ∧ sources.length ≠ 1 then _ else _)
                  _ _ _ _ _
                rw [if_pos htree]
                exact Ends.bind_error (Answers.fail _)
              · rw [hplan.trans (if_neg fun h => htree h.2)]
                show Ends (if (treeOf files options).isSome ∧ sources.length ≠ 1 then _ else _)
                  _ _ _ _ _
                dsimp only
                rw [if_neg htree, if_neg hnone]
                exact @ends_sources _ _ options
                  (settingsOf depths files options workspace columns) _
                  hdepths (hprogram workspace hloaded) rfl sources err

end

/-- The end of a part with this result whose failures are reported. -/
def reportedEnd (around : Surroundings) : Except Failure Nat → Except Ending Unit
  | .error failure =>
      if reportsFormat failure ∧ ¬ around.passesOn then .error (.exit 1)
      else .error (.failure failure)
  | .ok status => endOf (.ok status)

/-- Reporting a failure adds to the complaints alone. -/
theorem ends_report (failure : Failure) :
    Ends (Cli.report failure : Cli Unit) terms console
      (.error (if terms.around.passesOn then .failure failure else .exit 1)) console.files
      console.out := by
  unfold Cli.report
  refine Ends.bind_ok ⟨console.err, rfl⟩ fun err => ?_
  split
  · exact Answers.fail failure
  · exact Ends.bind_ok (Answers.complain _) fun err => .exit 1

/-- A failure ends the program as the report of it says. -/
theorem ends_reporting {part : Cli Unit} {result : Except Failure Nat} {files : Files} {out : Text}
    (h : Ends part terms console (endOf result) files out) :
    Ends (Cli.reporting reportsFormat part) terms console (reportedEnd terms.around result) files
      out := by
  unfold Cli.reporting reportedEnd
  rcases result with failure | (_ | status)
  · refine h.tryCatch_error fun err => ?_
    dsimp only
    by_cases hreports : reportsFormat failure
    · rw [if_pos hreports]
      have hreport := @ends_report terms { files, out, err } failure
      by_cases hpasses : terms.around.passesOn
      · rw [if_pos hpasses] at hreport
        rw [if_neg fun h => h.2 hpasses]
        exact hreport
      · rw [if_neg hpasses] at hreport
        rw [if_pos ⟨hreports, hpasses⟩]
        exact hreport
    · rw [if_neg hreports, if_neg fun h => hreports h.1]
      exact Answers.fail failure
  · exact h.tryCatch_ok
  · exact h.tryCatch_error fun err => .exit (status + 1)

/-- A run that is asked to format, without a program for trees, comes to its conclusion. -/
theorem run_conclusion (around : Surroundings) {files : Files} {words : List Text}
    {common : CommonOptions} {options : FormatOptions}
    (hrequest : Request.ofWords? words = .ok (some { common, job := .format options }))
    (hprogram : ∀ workspace, workspaceOf? around.depths files common = .ok workspace →
      workspace.parser.command = []) :
    let conclusion := conclusion around.depths files common options
    let ended := run around files words
    ended.outcome = outcomeOf around conclusion.result ∧
      ended.console.files = conclusion.files ∧ ended.console.out = conclusion.out := by
  let terms : RunTerms :=
    { around, threshold := around.threshold common.logLevel, verbose := common.verbose }
  obtain ⟨err, hon⟩ :=
    ends_reporting (@ends_formatFiles terms around.depths files common options rfl hprogram [])
  unfold run
  rw [hrequest]
  dsimp only [perform]
  unfold Cli.on at hon
  rw [hon]
  unfold reportedEnd outcomeOf
  dsimp only [terms]
  rcases (conclusion around.depths files common options).result with failure | (_ | status)
  · by_cases hreported : reportsFormat failure ∧ ¬ around.passesOn
    · simp only [if_pos hreported, and_self]
    · simp only [if_neg hreported, and_self]
  · exact ⟨rfl, rfl, rfl⟩
  · exact ⟨rfl, rfl, rfl⟩

end VerilogLayout.Command

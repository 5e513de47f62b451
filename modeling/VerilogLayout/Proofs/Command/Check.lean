import VerilogLayout.Proofs.Command.Write
import VerilogLayout.Proofs.Document.Problem

/-!
# What a check says

A run that checks counts the sources that cannot be read or rendered and those that formatting would
change, and its status says whether there are any. `run_check` is the result. Sources that are
printed are not compared with anything, so with this option a check counts only what is wrong with
them. A check prints, so it also ends where there are surrogates to print.
-/

namespace VerilogLayout.Command

variable {settings : Settings} {options : FormatOptions} {source : Path} {files : Files}

/-! ## Sources that are examined -/

namespace Settings

/-- The tree of the source is a file whose path can be a name and that, if it can be read, can be
loaded; or there is no tree. -/
def HasLoadableTree (settings : Settings) (files : Files) (source : Path) : Prop :=
  ∃ tree, settings.treeSource? files source = .ok tree ∧
    ∀ path, tree = .file path → path.toText.IsNameable ∧
      ∀ bytes, files.read? path = .ok bytes → IsLoadable settings.depths bytes

/-- A tree that can be loaded never keeps a source from being examined. -/
theorem exists_examine? (h : settings.HasLoadableTree files source) :
    ∃ finding, settings.examine? files source = .ok finding := by
  obtain ⟨tree, hfound, hfile⟩ := h
  have hdocument : ∀ text, ∃ formatted, (formatDocument settings.depths settings.columns files text
      (some source.toText) tree).1 = .ok formatted := by
    intro text
    obtain rfl | ⟨path, rfl⟩ := settings.treeSource?_eq_ok _ _ hfound
    · exact ⟨_, rfl⟩
    · exact exists_formatDocument_file.2 (hfile path rfl)
  unfold examine?
  cases readSource? files source with
  | error message => exact ⟨_, rfl⟩
  | ok text =>
      obtain ⟨formatted, hformatted⟩ := hdocument text
      dsimp only
      rw [format?_of_tree hfound, hformatted]
      exact ⟨_, rfl⟩

end Settings

/-- `finding.fails options` holds if a check counts a source with this finding. -/
def Finding.fails (options : FormatOptions) : Finding → Prop
  | .unreadable _ | .failed _ => True
  | .formatted before result => options.toOutput = false ∧ result.text ≠ before

/-- What is printed for a source with this finding has no surrogates. -/
def Finding.IsPrintable (options : FormatOptions) (source : Path) : Finding → Prop
  | .unreadable _ | .failed _ => True
  | .formatted before result =>
      options.toOutput ∨ result.text ≠ before →
        (options.said source before result).IsEncodable

/-! ## Runs that check -/

section
variable (hcheck : options.check)
include hcheck

/-- A check passes if and only if nothing is counted. -/
theorem Tally.status_eq_zero (tally : Tally) :
    tally.status options = 0 ↔ tally.errors = 0 ∧ tally.changed = 0 := by
  unfold status
  rw [hcheck]
  constructor
  · intro h
    split at h
    · cases h
    · next hnone =>
        have : ¬ 0 < tally.errors ∧ ¬ 0 < tally.changed := by simpa using hnone
        omega
  · rintro ⟨herrors, hchanged⟩
    simp [herrors, hchanged]

/-- A check that passes says so. -/
theorem Tally.summary_of_check {tally : Tally} (h : tally.status options = 0) :
    tally.summary options = "All files are already aligned\n" := by
  have hchanged := ((status_eq_zero hcheck tally).1 h).2
  unfold summary
  rw [if_pos hcheck, if_neg (by omega), if_pos h]
  rfl

namespace Progress

variable {progress next reached : Progress} {sources : List Path}

/-- A source behind which a check goes on is counted if and only if it fails the check. One that is
not counted is printed at most, and the files stay as they are. -/
theorem after_check {finding : Finding}
    (h : settings.examine? progress.files source = .ok finding)
    (hafter : progress.after options source finding = (none, next)) :
    next.files = progress.files ∧
      (next.tally.status options = 0 ↔
        progress.tally.status options = 0 ∧ ¬ finding.fails options) ∧
      (¬ finding.fails options → ∃ printed, next.out = progress.out ++ printed ∧
        (options.toOutput = false → printed = [])) := by
  have hshows : options.shows = true := by rw [FormatOptions.shows, hcheck]; rfl
  simp only [Tally.status_eq_zero hcheck]
  unfold Finding.fails
  cases finding with
  | unreadable message | failed errors =>
      obtain rfl := congrArg Prod.snd hafter
      exact ⟨rfl, by simp [after], by simp⟩
  | formatted before formatted =>
      have hchanged := Settings.changed_iff (Settings.examine?_eq_formatted h).2.1
      unfold after at hafter
      dsimp only at hafter
      by_cases hout : options.toOutput
      · rw [if_pos hout] at hafter
        obtain ⟨-, rfl⟩ := printed_eq_none.1 hafter
        exact ⟨rfl, by simp [hout], fun _ => ⟨_, rfl, by simp [hout]⟩⟩
      · rw [if_neg hout] at hafter
        by_cases hsame : formatted.text = before
        · rw [if_pos (by simpa using mt hchanged.1 (not_not.2 hsame))] at hafter
          obtain rfl := congrArg Prod.snd hafter
          exact ⟨rfl, by simp [hsame], fun _ => ⟨[], by simp⟩⟩
        · rw [if_neg (by simpa using hchanged.2 hsame), if_pos hshows] at hafter
          obtain ⟨-, rfl⟩ := printed_eq_none.1 hafter
          exact ⟨rfl, by simp [hout, hsame],
            fun hpasses => absurd ⟨by simpa using hout, hsame⟩ hpasses⟩

/-- A check goes on behind a source for which there are no surrogates to print. -/
theorem exists_after_check {finding : Finding}
    (h : settings.examine? progress.files source = .ok finding)
    (hprints : finding.IsPrintable options source) :
    ∃ next, progress.after options source finding = (none, next) := by
  have hshows : options.shows = true := by rw [FormatOptions.shows, hcheck]; rfl
  cases finding with
  | unreadable message | failed errors => exact ⟨_, rfl⟩
  | formatted before formatted =>
      have hchanged := Settings.changed_iff (Settings.examine?_eq_formatted h).2.1
      unfold after
      dsimp only
      by_cases hout : options.toOutput
      · rw [if_pos hout]
        exact ⟨_, printed_eq_none.2 ⟨hprints (.inl hout), rfl⟩⟩
      · rw [if_neg hout]
        by_cases hsame : formatted.text = before
        · rw [if_pos (by simpa using mt hchanged.1 (not_not.2 hsame))]
          exact ⟨progress, rfl⟩
        · rw [if_neg (by simpa using hchanged.2 hsame), if_pos hshows]
          exact ⟨_, printed_eq_none.2 ⟨hprints (.inr hsame), rfl⟩⟩

/-- A check that comes to the end of its sources passes if and only if none of them fails it. -/
theorem visit_check (h : progress.visit settings options sources = (none, reached)) :
    reached.files = progress.files ∧
      (reached.tally.status options = 0 ↔ progress.tally.status options = 0 ∧
        ∀ source ∈ sources, ∀ finding,
          settings.examine? progress.files source = .ok finding → ¬ finding.fails options) ∧
      (reached.tally.status options = 0 → ∃ printed, reached.out = progress.out ++ printed ∧
        (options.toOutput = false → printed = [])) := by
  -- No source changes the files, so all of them are examined on those that the check finds.
  induction sources generalizing progress with
  | nil =>
      obtain rfl : progress = reached := congrArg Prod.snd h
      exact ⟨rfl, by simp, fun _ => ⟨[], by simp⟩⟩
  | cons source rest ih =>
      obtain ⟨next, hstep, hrest⟩ := visit_cons_eq_none.1 h
      obtain ⟨finding, hexamined, hafter⟩ := step_eq_none.1 hstep
      obtain ⟨hfiles, hstatus, hout⟩ := after_check hcheck hexamined hafter
      obtain ⟨hfiles', hstatus', hout'⟩ := ih hrest
      rw [hfiles] at hfiles' hstatus'
      refine ⟨hfiles', ?_, fun hzero => ?_⟩
      · rw [hstatus', hstatus, List.forall_mem_cons, and_assoc]
        simp [hexamined]
      · obtain ⟨printed', hprinted', hnone'⟩ := hout' hzero
        have hpasses := (hstatus.1 (hstatus'.1 hzero).1).2
        obtain ⟨printed, hprinted, hnone⟩ := hout hpasses
        refine ⟨printed ++ printed', ?_, fun hprints => ?_⟩
        · rw [hprinted', hprinted, List.append_assoc]
        · rw [hnone hprints, hnone' hprints]
          rfl

/-- A check comes to the end of sources that can be examined and for which there are no surrogates
to print. -/
theorem exists_visit_check (h : ∀ source ∈ sources, ∃ finding,
      settings.examine? progress.files source = .ok finding ∧
        finding.IsPrintable options source) :
    ∃ reached, progress.visit settings options sources = (none, reached) := by
  induction sources generalizing progress with
  | nil => exact ⟨progress, rfl⟩
  | cons source rest ih =>
      obtain ⟨finding, hexamined, hprints⟩ := h source List.mem_cons_self
      obtain ⟨next, hafter⟩ := exists_after_check hcheck hexamined hprints
      have hfiles := (after_check hcheck hexamined hafter).1
      obtain ⟨reached, hvisit⟩ := @ih next (by
        rw [hfiles]
        exact fun other hother => h other (List.mem_cons_of_mem _ hother))
      exact ⟨reached, visit_cons_eq_none.2
        ⟨next, step_eq_none.2 ⟨finding, hexamined, hafter⟩, hvisit⟩⟩

end Progress

/-- A check that comes to the end of its sources has the status 0 if and only if none of them fails
it, and says so; else it has the status 1. -/
theorem conclusion_check {depths : Depths} {common : CommonOptions} {plan : Plan}
    {reached : Progress} (hplan : plan? depths files common options = .ok plan)
    (hsources : plan.sources ≠ [])
    (hvisit : ({ files } : Progress).visit plan.settings options plan.sources = (none, reached)) :
    let conclusion := conclusion depths files common options
    ∃ status, conclusion.result = .ok status ∧ status ≤ 1 ∧
      (status = 0 ↔ ∀ source ∈ plan.sources, ∀ finding,
        plan.settings.examine? files source = .ok finding → ¬ finding.fails options) ∧
      (status = 0 → ∃ printed, conclusion.out = printed ++ "All files are already aligned\n" ∧
        (options.toOutput = false → printed = [])) := by
  obtain ⟨-, hstatus, hprinted⟩ := Progress.visit_check hcheck hvisit
  have hstart : ({} : Tally).status options = 0 := (Tally.status_eq_zero hcheck _).2 ⟨rfl, rfl⟩
  unfold conclusion
  rw [hplan]
  dsimp only
  rw [if_neg hsources, hvisit]
  refine ⟨reached.tally.status options, rfl, ?_, hstatus.trans (and_iff_right hstart),
    fun hzero => ?_⟩
  · unfold Tally.status
    split <;> decide
  · obtain ⟨printed, hprinted, hnone⟩ := hprinted hzero
    refine ⟨printed, ?_, hnone⟩
    show reached.out ++ reached.tally.summary options = _
    rw [hprinted, Tally.summary_of_check hcheck hzero]
    rfl

end

/-- A check of sources whose trees can be loaded, for which it has no surrogates to print, ends with
the status 1 if and only if a source cannot be read or rendered or, unless the sources are printed,
has another text than formatted. Otherwise it ends with the status 0 and says that all files are
aligned. -/
theorem run_check (around : Surroundings) {files : Files} {words : List Text}
    {common : CommonOptions} {options : FormatOptions} {plan : Plan}
    (hrequest : Request.ofWords? words = .ok (some { common, job := .format options }))
    (hprogram : ∀ workspace, workspaceOf? around.depths files common = .ok workspace →
      workspace.parser.command = [])
    (hcheck : options.check) (hplan : plan? around.depths files common options = .ok plan)
    (hsources : plan.sources ≠ [])
    (htrees : ∀ source ∈ plan.sources, plan.settings.HasLoadableTree files source)
    (hprints : ∀ source ∈ plan.sources, ∀ finding,
      plan.settings.examine? files source = .ok finding → finding.IsPrintable options source) :
    let ended := run around files words
    let fails := ∃ source ∈ plan.sources, ∃ finding,
      plan.settings.examine? files source = .ok finding ∧ finding.fails options
    (ended.outcome = .exited 1 ↔ fails) ∧
      (¬ fails → ended.outcome = .exited 0 ∧
        ∃ printed, ended.console.out = printed ++ "All files are already aligned\n" ∧
          (options.toOutput = false → printed = [])) := by
  obtain ⟨houtcome, -, hout⟩ := run_conclusion around hrequest hprogram
  obtain ⟨reached, hvisit⟩ := @Progress.exists_visit_check plan.settings options hcheck { files }
    plan.sources fun source hsource => by
      obtain ⟨finding, hexamined⟩ := Settings.exists_examine? (htrees source hsource)
      exact ⟨finding, hexamined, hprints source hsource finding hexamined⟩
  obtain ⟨status, hresult, hbound, hstatus, hprinted⟩ :=
    conclusion_check hcheck hplan hsources hvisit
  have hfails : (∃ source ∈ plan.sources, ∃ finding,
      plan.settings.examine? files source = .ok finding ∧ finding.fails options) ↔
        status ≠ 0 := by
    rw [Ne, hstatus]
    simp
  dsimp only
  rw [hfails, houtcome, hresult, hout, not_not]
  refine ⟨?_, fun hzero => ⟨by rw [hzero]; rfl, hprinted hzero⟩⟩
  rw [outcomeOf, Outcome.exited.injEq]
  omega

/-- A source that is printed passes a check that formatting would change. -/
theorem run_check_printed :
    let files : Files :=
      { root := "/w", scratch := "/t"
        entries := [({ anchor := .known "/w", names := ["a.v"] },
          .file (Text.utf8 "wire a;\n".toList))] }
    let words : List Text := ["format", "--check", "--stdout", "a.v"]
    let options : FormatOptions := { paths := ["a.v"], check := true, toOutput := true }
    let settings : Settings := { columns := Columns.standard, treeSuffix := ".ast.json" }
    let plan : Plan := { settings, sources := [{ names := ["a.v"] }] }
    Request.ofWords? words = .ok (some { common := {}, job := .format options }) ∧
      (∀ workspace, workspaceOf? {} files {} = .ok workspace → workspace.parser.command = []) ∧
      plan? {} files {} options = .ok plan ∧
      (∀ source ∈ plan.sources, plan.settings.HasLoadableTree files source) ∧
      alignText Columns.standard "wire a;\n" ≠ "wire a;\n" ∧
      (run {} files words).outcome = .exited 0 := by
  intro files words options settings plan
  have hrequest : Request.ofWords? words = .ok (some { common := {}, job := .format options }) :=
    rfl
  have hprogram : ∀ workspace, workspaceOf? {} files {} = .ok workspace →
      workspace.parser.command = [] := by
    intro workspace h
    cases h
    rfl
  have hplan : plan? {} files {} options = .ok plan := rfl
  have htrees : ∀ source ∈ plan.sources, plan.settings.HasLoadableTree files source := by
    intro source hsource
    obtain rfl := List.mem_singleton.1 hsource
    exact ⟨.absent, rfl, fun _ h => nomatch h⟩
  have hread : readSource? files { names := ["a.v"] } = .ok "wire a;\n" :=
    readSource?_eq_ok.2 ⟨_, _, rfl, rfl, Files.decodeText?_utf8 _⟩
  have hfinding : ∀ source ∈ plan.sources, ∀ finding,
      plan.settings.examine? files source = .ok finding → finding = .formatted "wire a;\n"
        (formatLines Columns.standard "wire a;\n" noTreeWarning).1 := by
    intro source hsource finding hexamined
    obtain rfl := List.mem_singleton.1 hsource
    unfold Settings.examine? at hexamined
    rw [hread] at hexamined
    exact (Except.ok.inj hexamined).symm
  have hprints : ∀ source ∈ plan.sources, ∀ finding,
      plan.settings.examine? files source = .ok finding → finding.IsPrintable options source := by
    intro source hsource finding hexamined
    obtain rfl := hfinding source hsource finding hexamined
    have hplain : ∀ c ∈ alignText Columns.standard "wire a;\n", c.isSurrogate = false := by
      decide +kernel
    exact fun _ => hplain
  have hcheck := run_check {} hrequest hprogram rfl hplan (List.cons_ne_nil _ _) htrees hprints
  refine ⟨hrequest, hprogram, hplan, htrees, by decide +kernel, (hcheck.2 ?_).1⟩
  rintro ⟨source, hsource, finding, hexamined, hfails⟩
  obtain rfl := hfinding source hsource finding hexamined
  exact absurd hfails.1 (by decide)

end VerilogLayout.Command

import VerilogLayout.Proofs.Command.Check
import VerilogLayout.Proofs.Command.Found
import VerilogLayout.Proofs.Document.Again

/-!
# Checking what has been formatted

After a run that has formatted its sources every source is `Settled`: its file holds what formatting
gives, as it is read back. `Formats.settled` says that a step settles its source, and
`Settled.step` that no other step unsettles it, since the trees beside the sources stay as they are.
`run_again` is the result: a check of these sources passes if and only if no tree beside them has a
text with a carriage return in it, which is lost when the text is read back.
-/

namespace VerilogLayout.Command

variable {settings : Settings} {options : FormatOptions} {files now next : Files}
  {source other : Path} {sources : List Path} {text : Text} {formatted : Formatted}

/-! ## The tree beside a source -/

namespace Settings

/-- The tree beside a source, if there is one. -/
def siblingTree? (settings : Settings) (files : Files) (source : Path) : Option Node :=
  (Node.load? settings.depths.tree files (settings.sibling source)).toOption

/-- There is a tree beside a source if and only if it loads. -/
theorem siblingTree?_eq_some {tree : Node} :
    settings.siblingTree? files source = some tree ↔
      Node.load? settings.depths.tree files (settings.sibling source) = .ok tree := by
  unfold siblingTree?
  cases Node.load? settings.depths.tree files (settings.sibling source) <;> simp [Except.toOption]

/-- Sources whose paths lead to the same place have the same tree. -/
theorem siblingTree?_eq {place : Path} (hsource : .char 'v' ∈ source.name)
    (hother : .char 'v' ∈ other.name) (hplace : files.locate source = .ok place)
    (hplace' : files.locate other = .ok place) :
    settings.siblingTree? files source = settings.siblingTree? files other := by
  have hread : ∀ bytes, files.read? (settings.sibling source) = .ok bytes ↔
      files.read? (settings.sibling other) = .ok bytes := by
    intro bytes
    rw [Files.read?_eq_ok, Files.read?_eq_ok, locate_sibling hsource hplace,
      locate_sibling hother hplace']
  refine Option.ext fun tree => ?_
  rw [siblingTree?_eq_some, siblingTree?_eq_some, Node.load?_eq_ok, Node.load?_eq_ok]
  simp only [hread]

section
variable (htree : settings.tree = none)
include htree

/-- Without a given tree a source is formatted with the tree beside it, if its name allows one. -/
theorem treeSource?_eq_sibling {tree : TreeSource}
    (h : settings.treeSource? files source = .ok tree) :
    tree = if files.isFile (settings.sibling source) then .file (settings.sibling source)
      else .absent := by
  unfold treeSource? at h
  rw [htree] at h
  dsimp only at h
  split at h
  · cases h
  · exact (Except.ok.inj h).symm

/-- A source is formatted in the same way on files with the same names and the same tree. -/
theorem format?_again {before after : Files} (h : Files.Alike before after)
    (hread : after.read? (settings.sibling source) = before.read? (settings.sibling source)) :
    settings.format? after source text = settings.format? before source text := by
  have hsame : settings.treeSource? after source = settings.treeSource? before source := by
    unfold treeSource?
    rw [htree, h.isFile]
  cases hfound : settings.treeSource? before source with
  | error failure => rw [format?_of_failure hfound, format?_of_failure (hsame.trans hfound)]
  | ok tree =>
      rw [format?_of_tree hfound, format?_of_tree (hsame.trans hfound)]
      obtain rfl := treeSource?_eq_sibling htree hfound
      split
      · rw [formatDocument_file_again hread]
      · rfl

/-- A source that can be formatted can be formatted with any text. -/
theorem exists_format? (h : settings.format? files source text = .ok formatted) (other : Text) :
    ∃ formatted, settings.format? files source other = .ok formatted := by
  obtain ⟨tree, hfound, hdocument⟩ := format?_eq_ok.1 h
  rw [format?_of_tree hfound]
  obtain rfl := treeSource?_eq_sibling htree hfound
  split at hdocument
  · next hfile =>
      obtain ⟨again, hagain⟩ :=
        exists_formatDocument_file.2 (exists_formatDocument_file.1 ⟨formatted, hdocument⟩)
      rw [if_pos hfile, hagain]
      exact ⟨again, rfl⟩
  · next hfile =>
      rw [if_neg hfile]
      exact ⟨_, rfl⟩

/-- What a source is formatted to depends on the tree beside it and its text alone. -/
theorem format?_eq (h : settings.format? files source text = .ok formatted) :
    let expected := formattedWith settings.columns (settings.siblingTree? files source) text
    formatted.text = expected.text ∧ formatted.errors = expected.errors := by
  obtain ⟨tree, hfound, hdocument⟩ := format?_eq_ok.1 h
  obtain rfl := treeSource?_eq_sibling htree hfound
  split at hdocument
  · exact formatDocument_file_eq hdocument
  · next hfile =>
      have hnone : settings.siblingTree? files source = none := by
        refine Option.eq_none_iff_forall_ne_some.2 fun tree hsome => ?_
        obtain ⟨bytes, _, hread, -⟩ := Node.load?_eq_ok.1 (siblingTree?_eq_some.1 hsome)
        obtain ⟨place, hplace, hentry⟩ := Files.read?_eq_ok.1 hread
        exact hfile (Files.isFile_iff.2 ⟨place, bytes, hplace, hentry⟩)
      rw [hnone]
      obtain rfl := Except.ok.inj hdocument
      exact ⟨rfl, rfl⟩

end
end Settings

/-! ## Runs that format everything -/

/-- A source is formatted, and overwritten if it had another text. -/
structure Formats (settings : Settings) (source : Path) (files next : Files) (before : Text)
    (formatted : Formatted) : Prop where
  examined : settings.examine? files source = .ok (.formatted before formatted)
  next_eq : formatted.text = before ∧ next = files ∨
    formatted.text ≠ before ∧
      ∃ bytes, formatted.text.toUtf8? = .ok bytes ∧ next = files.rewritten source bytes

/-- The sources are formatted one after the other. -/
inductive FormatsAll (settings : Settings) : List Path → Files → Files → Prop
  | nil (files : Files) : FormatsAll settings [] files files
  | cons {source : Path} {rest : List Path} {files next after : Files} {before : Text}
      {formatted : Formatted} (h : Formats settings source files next before formatted)
      (hrest : FormatsAll settings rest next after) :
      FormatsAll settings (source :: rest) files after

namespace Progress

variable {progress reached : Progress}

/-- No source makes a run forget an error. -/
theorem errors_le_after {finding : Finding} :
    progress.tally.errors ≤ (progress.after options source finding).2.tally.errors := by
  have hprinted : ∀ (progress' : Progress) (text : Text),
      progress'.tally.errors = progress.tally.errors →
        progress.tally.errors ≤ (progress'.printed text).2.tally.errors := by
    intro progress' text hsame
    rw [(printed_keeps text).2, hsame]
  unfold after
  cases finding with
  | unreadable message | failed errors => exact Nat.le_succ _
  | formatted before formatted =>
      dsimp only
      split
      · exact hprinted progress _ rfl
      · split
        · exact Nat.le_refl _
        · split
          · exact hprinted _ _ rfl
          · unfold overwritten
            cases formatted.text.toUtf8? with
            | ok bytes => exact hprinted _ _ rfl
            | error e => exact Nat.le_refl _

/-- Visiting more sources loses no error. -/
theorem errors_le_visit (h : progress.visit settings options sources = (none, reached)) :
    progress.tally.errors ≤ reached.tally.errors := by
  induction sources generalizing progress with
  | nil =>
      obtain rfl : progress = reached := congrArg Prod.snd h
      exact Nat.le_refl _
  | cons source rest ih =>
      obtain ⟨next, hstep, hrest⟩ := visit_cons_eq_none.1 h
      obtain ⟨finding, -, hafter⟩ := step_eq_none.1 hstep
      have hle := @errors_le_after options source progress finding
      rw [hafter] at hle
      exact hle.trans (ih hrest)

/-- A run that meets no errors formats all its sources. -/
theorem formatsAll_visit (hshows : options.shows = false)
    (h : progress.visit settings options sources = (none, reached))
    (herrors : reached.tally.errors = 0) :
    FormatsAll settings sources progress.files reached.files := by
  induction sources generalizing progress with
  | nil =>
      obtain rfl : progress = reached := congrArg Prod.snd h
      exact .nil _
  | cons source rest ih =>
      obtain ⟨next, hstep, hrest⟩ := visit_cons_eq_none.1 h
      obtain ⟨finding, hexamined, hafter⟩ := step_eq_none.1 hstep
      have hnone : next.tally.errors = 0 :=
        Nat.eq_zero_of_le_zero (herrors ▸ errors_le_visit hrest)
      have htreats := treats_step settings options source progress
      have hlater := ih hrest
      rw [hstep] at htreats
      replace htreats : Treats settings options source progress.files none next.files := htreats
      generalize next.files = middle at htreats hlater
      have hwrites : ¬ options.shows := by rw [hshows]; exact Bool.false_ne_true
      -- The step has found something and met no error, so it has formatted the source.
      cases htreats with
      | unreadable h =>
          obtain rfl := Except.ok.inj (h.symm.trans hexamined)
          obtain rfl := congrArg Prod.snd hafter
          cases hnone
      | failed h =>
          obtain rfl := Except.ok.inj (h.symm.trans hexamined)
          obtain rfl := congrArg Prod.snd hafter
          cases hnone
      | same h hsame => exact .cons ⟨h, .inl ⟨hsame, rfl⟩⟩ hlater
      | shown _ hshown _ => exact absurd hshown hwrites
      | overwritten h hother _ hbytes _ =>
          exact .cons ⟨h, .inr ⟨hother, _, hbytes, rfl⟩⟩ hlater

end Progress

/-! ## What formatting leaves -/

/-- What is read of a source has no carriage return in it. -/
theorem not_mem_of_readSource? (h : readSource? files source = .ok text) : .char '\r' ∉ text := by
  obtain ⟨_, bytes, -, -, hdecoded⟩ := readSource?_eq_ok.1 h
  obtain ⟨raw, -, rfl⟩ := map_eq_ok.1 hdecoded
  exact Text.not_mem_unifyNewlines raw

namespace Formats

variable {before : Text} (h : Formats settings source files next before formatted)
include h

/-- Formatting a source leaves all names as they are. -/
theorem alike : Files.Alike files next := by
  obtain ⟨-, rfl⟩ | ⟨-, bytes, -, rfl⟩ := h.next_eq
  · exact .refl next
  · obtain ⟨place, old, hplace, hfile, -⟩ := Treats.exists_place h.examined
    rw [Files.rewritten_eq hplace]
    exact .put hfile _

/-- After a source has been formatted, reading it gives the formatted text as it is read back. -/
theorem readSource?_next :
    readSource? next source = .ok (Text.unifyNewlines formatted.text) := by
  have hread := (Settings.examine?_eq_formatted h.examined).1
  obtain ⟨place, old, hplace, hfile, -⟩ := readSource?_eq_ok.1 hread
  obtain ⟨hsame, rfl⟩ | ⟨-, bytes, hbytes, rfl⟩ := h.next_eq
  · rw [hsame, Text.unifyNewlines_eq_self (not_mem_of_readSource? hread)]
    exact hread
  · rw [Files.rewritten_eq hplace]
    refine readSource?_eq_ok.2 ⟨place, bytes, ?_, ?_, Files.decodeText?_of_toUtf8? hbytes⟩
    · rw [(Files.Alike.put hfile _).locate, hplace]
    · rw [Files.entry?_put hfile, if_pos rfl]

/-- Formatting a source changes nothing but what stands at its place. -/
theorem entry?_next {place : Path} (hplace : files.locate source ≠ .ok place) :
    next.entry? place = files.entry? place := by
  obtain ⟨-, rfl⟩ | ⟨-, bytes, -, rfl⟩ := h.next_eq
  · rfl
  · obtain ⟨there, old, hthere, hfile, -⟩ := Treats.exists_place h.examined
    rw [Files.rewritten_eq hthere, Files.entry?_put hfile, if_neg]
    rintro rfl
    exact hplace hthere

end Formats

/-! ## Sources that are settled -/

/-- `IsPlaceOf files sources place` holds if the path of a source leads to the place. -/
def IsPlaceOf (files : Files) (sources : List Path) (place : Path) : Prop :=
  ∃ source ∈ sources, files.locate source = .ok place

/-- Sources that have their trees beside them, none of which is a source itself. -/
structure Apart (settings : Settings) (files : Files) (sources : List Path) : Prop where
  tree : settings.tree = none
  name : ∀ source ∈ sources, .char 'v' ∈ source.name
  beside : ∀ source ∈ sources, ∀ place,
    files.locate (settings.sibling source) = .ok place → ¬ IsPlaceOf files sources place

/-- A source is settled if it holds a formatted text as it is read back. -/
def Settled (settings : Settings) (files now : Files) (source : Path) : Prop :=
  ∃ text formatted, .char '\r' ∉ text ∧ settings.format? files source text = .ok formatted ∧
    formatted.errors = [] ∧ readSource? now source = .ok (Text.unifyNewlines formatted.text)

section
variable (hnow : Files.SameBut (IsPlaceOf files sources) files now)
include hnow

/-- Formatting a source changes nothing outside of the places of sources. -/
theorem Formats.sameBut {before : Text} (h : Formats settings source now next before formatted)
    (hsource : source ∈ sources) : Files.SameBut (IsPlaceOf files sources) files next := by
  refine hnow.trans ⟨h.alike, fun place hplace => h.entry?_next ?_⟩
  rw [hnow.alike.locate]
  exact fun hlocated => hplace ⟨source, hsource, hlocated⟩

variable (hapart : Apart settings files sources)
include hapart

/-- The sources are formatted in the same way as long as only sources change. -/
theorem format?_now (hsource : source ∈ sources) :
    settings.format? now source text = settings.format? files source text :=
  Settings.format?_again hapart.tree hnow.alike (hnow.read? (hapart.beside source hsource))

section
variable {before : Text} (h : Formats settings source now next before formatted)
  (hsource : source ∈ sources)
include h hsource

/-- A step settles its source. -/
theorem Formats.settled : Settled settings files next source := by
  obtain ⟨hread, hformat, hsucceeded⟩ := Settings.examine?_eq_formatted h.examined
  refine ⟨before, formatted, not_mem_of_readSource? hread, ?_, List.isEmpty_iff.1 hsucceeded,
    h.readSource?_next⟩
  rw [← format?_now hnow hapart hsource]
  exact hformat

/-- No step unsettles a source. -/
theorem Settled.step (hother : other ∈ sources) (hsettled : Settled settings files now other) :
    Settled settings files next other := by
  obtain ⟨text, result, htext, hformat, herrors, hread⟩ := hsettled
  obtain ⟨place, bytes, hplace, hfile, hdecoded⟩ := readSource?_eq_ok.1 hread
  have hplace' : next.locate other = .ok place := (h.alike.locate other).trans hplace
  by_cases hsame : now.locate source = .ok place
  · -- The step has settled the same file, and its tree is the same.
    obtain ⟨text', result', htext', hformat', herrors', hread'⟩ := h.settled hnow hapart hsource
    have hplaces : files.locate other = .ok place ∧ files.locate source = .ok place := by
      rw [← hnow.alike.locate, ← hnow.alike.locate]
      exact ⟨hplace, hsame⟩
    have htree : settings.siblingTree? files other = settings.siblingTree? files source :=
      Settings.siblingTree?_eq (hapart.name other hother) (hapart.name source hsource) hplaces.1
        hplaces.2
    obtain ⟨again, hagain⟩ := Settings.exists_format? hapart.tree hformat text'
    have hexpected := Settings.format?_eq hapart.tree hagain
    rw [htree] at hexpected
    have hexpected' := Settings.format?_eq hapart.tree hformat'
    have htext'' : again.text = result'.text := hexpected.1.trans hexpected'.1.symm
    refine ⟨text', again, htext', hagain, ?_, ?_⟩
    · rw [hexpected.2, ← hexpected'.2, herrors']
    · obtain ⟨there, bytes', hthere, hfile', hdecoded'⟩ := readSource?_eq_ok.1 hread'
      obtain rfl : there = place := by
        rw [h.alike.locate, hsame] at hthere
        exact (Except.ok.inj hthere).symm
      rw [htext'']
      exact readSource?_eq_ok.2 ⟨there, bytes', hplace', hfile', hdecoded'⟩
  · refine ⟨text, result, htext, hformat, herrors, readSource?_eq_ok.2 ⟨place, bytes, hplace', ?_,
      hdecoded⟩⟩
    rw [h.entry?_next hsame, hfile]

end

variable {after : Files} {rest : List Path}

/-- No run that formats sources unsettles one. -/
theorem Settled.along (h : FormatsAll settings rest now after)
    (hrest : ∀ source ∈ rest, source ∈ sources) (hother : other ∈ sources)
    (hsettled : Settled settings files now other) : Settled settings files after other := by
  induction h with
  | nil now => exact hsettled
  | @cons source rest now next after before formatted h hlater ih =>
      obtain ⟨hsource, hrest⟩ := List.forall_mem_cons.1 hrest
      exact ih (h.sameBut hnow hsource) hrest (hsettled.step hnow hapart h hsource hother)

/-- A run that formats sources settles all of them, and changes nothing else. -/
theorem FormatsAll.settled (h : FormatsAll settings rest now after)
    (hrest : ∀ source ∈ rest, source ∈ sources) :
    Files.SameBut (IsPlaceOf files sources) files after ∧
      ∀ source ∈ rest, Settled settings files after source := by
  induction h with
  | nil now => exact ⟨hnow, fun _ h => nomatch h⟩
  | @cons source rest now next after before formatted h hlater ih =>
      obtain ⟨hsource, hrest⟩ := List.forall_mem_cons.1 hrest
      have hnext := h.sameBut hnow hsource
      -- The first source is settled by its own step and stays so along the others.
      obtain ⟨hafter, hsettled⟩ := ih hnext hrest
      exact ⟨hafter, List.forall_mem_cons.2
        ⟨(h.settled hnow hapart hsource).along hnext hapart hlater hrest hsource, hsettled⟩⟩

end

/-! ## The check -/

/-- A settled source is formatted to the text that it holds, as it was before it was read back. -/
theorem Settled.examine? (hafter : Files.SameBut (IsPlaceOf files sources) files now)
    (hapart : Apart settings files sources)
    (harray : settings.columns .arrayKeyword = settings.columns .signalKeyword)
    (hsource : source ∈ sources) (h : Settled settings files now source) :
    ∃ before result, settings.examine? now source = .ok (.formatted before result) ∧
      (result.text = before ↔ ∀ tree rendered,
        settings.siblingTree? files source = some tree →
          Node.formatTree settings.columns tree = .ok rendered → .char '\r' ∉ rendered) := by
  obtain ⟨text, formatted, htext, hformat, herrors, hread⟩ := h
  obtain ⟨hexpected, hexpectedErrors⟩ := Settings.format?_eq hapart.tree hformat
  obtain ⟨again, hagain⟩ :=
    Settings.exists_format? hapart.tree hformat (Text.unifyNewlines formatted.text)
  obtain ⟨hagainText, hagainErrors⟩ := Settings.format?_eq hapart.tree hagain
  obtain ⟨hsameText, hsameErrors⟩ :=
    formattedWith_again harray (settings.siblingTree? files source) htext
  rw [← hexpected] at hsameText hsameErrors
  refine ⟨Text.unifyNewlines formatted.text, again, ?_, ?_⟩
  · unfold Settings.examine?
    rw [hread]
    dsimp only
    rw [format?_now hafter hapart hsource, hagain]
    have hsucceeded : again.succeeded := by
      refine List.isEmpty_iff.2 ?_
      rw [hagainErrors, hsameErrors, ← hexpectedErrors, herrors]
    show Except.ok (Finding.ofFormatted _ again) = _
    rw [Finding.ofFormatted, if_pos hsucceeded]
  · rw [hagainText, hsameText, eq_comm, Text.unifyNewlines_eq_self_iff, hexpected]
    exact not_mem_formattedWith_iff htext (hexpectedErrors ▸ herrors)

/-- A run that may write and comes to the status 0 formats all its sources. -/
theorem formatsAll_conclusion {depths : Depths} {common : CommonOptions} {plan : Plan}
    (hshows : options.shows = false) (hplan : plan? depths files common options = .ok plan)
    (h : (conclusion depths files common options).result = .ok 0) :
    FormatsAll plan.settings plan.sources files (conclusion depths files common options).files := by
  unfold conclusion at h ⊢
  rw [hplan] at h ⊢
  dsimp only at h ⊢
  by_cases hnone : plan.sources = []
  · rw [if_pos hnone, hnone]
    exact .nil files
  · rw [if_neg hnone] at h ⊢
    cases hvisit : ({ files } : Progress).visit plan.settings options plan.sources with
    | mk failure? reached =>
        rw [hvisit] at h
        cases failure? with
        | some failure => cases h
        | none =>
            refine Progress.formatsAll_visit hshows hvisit ?_
            have hstatus : reached.tally.status options = 0 := Except.ok.inj h
            unfold Tally.status at hstatus
            split at hstatus
            · cases hstatus
            · next hgood => exact Nat.eq_zero_of_not_pos fun hpos => hgood (.inl hpos)

/-- Only a result without a failure ends a run with the status 0. -/
theorem eq_zero_of_outcomeOf {around : Surroundings} {result : Except Failure Nat}
    (h : outcomeOf around result = .exited 0) : result = .ok 0 := by
  unfold outcomeOf at h
  cases result with
  | ok status => rw [Outcome.exited.inj h]
  | error failure =>
      dsimp only at h
      split at h <;> cases h

/-- A check that can format all its sources passes if and only if each comes out as it is. -/
theorem passes_iff {depths : Depths} {common : CommonOptions} {paths : List Text} {plan : Plan}
    (around : Surroundings) {comesOut : Path → Prop}
    (hplan : plan? depths files common { paths, check := true } = .ok plan)
    (hexamined : ∀ source ∈ plan.sources, ∃ before result,
      plan.settings.examine? files source = .ok (.formatted before result) ∧
        (result.text = before ↔ comesOut source)) :
    let conclusion := conclusion depths files common { paths, check := true }
    (outcomeOf around conclusion.result = .exited 0 ∧ conclusion.out =
        if plan.sources = [] then "No files to format\n" else "All files are already aligned\n") ↔
      ∀ source ∈ plan.sources, comesOut source := by
  dsimp only
  by_cases hnone : plan.sources = []
  · have hconclusion : conclusion depths files common { paths, check := true } =
        { result := .ok 0, files, out := "No files to format\n" } := by
      unfold conclusion
      rw [hplan]
      exact if_pos hnone
    rw [hconclusion, if_pos hnone, hnone]
    exact ⟨fun _ => List.forall_mem_nil _, fun _ => ⟨rfl, rfl⟩⟩
  · cases hvisit : ({ files } : Progress).visit plan.settings { paths, check := true }
      plan.sources with
    | mk failure? reached =>
      cases failure? with
      | some failure =>
        -- The check has surrogates to print, so some source has another text than formatted.
        have hfailed : (conclusion depths files common { paths, check := true }).result =
            .error failure := by
          unfold conclusion
          rw [hplan]
          dsimp only
          rw [if_neg hnone, hvisit]
          rfl
        rw [hfailed]
        refine iff_of_false (fun h => ?_) fun hcomesOut => ?_
        · cases eq_zero_of_outcomeOf h.1
        · obtain ⟨reached', hreached⟩ := @Progress.exists_visit_check plan.settings
            { paths, check := true } rfl { files } plan.sources fun source hsource => by
              obtain ⟨before, result, hfound, hiff⟩ := hexamined source hsource
              refine ⟨_, hfound, fun h => ?_⟩
              exact absurd (hiff.2 (hcomesOut source hsource)) (h.resolve_left Bool.false_ne_true)
          rw [hvisit] at hreached
          cases hreached
      | none =>
        obtain ⟨status, hresult, -, hstatus, hprinted⟩ :=
          conclusion_check rfl hplan hnone hvisit
        have hzero : (outcomeOf around (.ok status) = .exited 0 ∧
            (conclusion depths files common { paths, check := true }).out =
              "All files are already aligned\n") ↔ status = 0 := by
          constructor
          · rintro ⟨houtcome, -⟩
            exact Outcome.exited.inj houtcome
          · intro hzero
            obtain ⟨printed, hprinted, hempty⟩ := hprinted hzero
            rw [hempty rfl] at hprinted
            exact ⟨by rw [hzero]; rfl, hprinted⟩
        rw [hresult, if_neg hnone, hzero, hstatus]
        refine forall₂_congr fun source hsource => ?_
        obtain ⟨before, result, hfound, hiff⟩ := hexamined source hsource
        rw [← hiff]
        constructor
        · intro hpasses
          by_contra hother
          exact hpasses _ hfound ⟨rfl, hother⟩
        · intro hsame finding hfinding hfails
          rw [hfound] at hfinding
          obtain rfl := Except.ok.inj hfinding
          exact hfails.2 hsame

/-- A check of what a run has just formatted without an error passes if and only if no tree beside a
source has a text with a carriage return in it; if arrays start at the column of other signals, the
stack has the same room for both runs, and no source is the tree of one or the configuration file.
-/
theorem run_again (around around' : Surroundings) (hdepths : around'.depths = around.depths)
    {files : Files} {words words' : List Text}
    {common : CommonOptions} {paths : List Text} {workspace : Workspace} {plan : Plan}
    (hformat : Request.ofWords? words = .ok (some { common, job := .format { paths } }))
    (hcheck : Request.ofWords? words' =
      .ok (some { common, job := .format { paths, check := true } }))
    (hworkspace : workspaceOf? around.depths files common = .ok workspace)
    (hprogram : workspace.parser.command = [])
    (hplan : plan? around.depths files common { paths } = .ok plan)
    (harray : plan.settings.columns .arrayKeyword = plan.settings.columns .signalKeyword)
    (hapart : ∀ source ∈ plan.sources, ∀ place, files.locate source = .ok place →
      (∀ other ∈ plan.sources, files.locate (plan.settings.sibling other) ≠ .ok place) ∧
        ∀ config, workspace.source = some config → files.locate config ≠ .ok place)
    (hdone : (run around files words).outcome = .exited 0) :
    let again := run around' (run around files words).console.files words'
    (again.outcome = .exited 0 ∧ again.console.out =
        if plan.sources = [] then "No files to format\n" else "All files are already aligned\n") ↔
      ∀ source ∈ plan.sources, ∀ tree rendered,
        Node.load? plan.settings.depths.tree files (plan.settings.sibling source) = .ok tree →
          Node.formatTree plan.settings.columns tree = .ok rendered → .char '\r' ∉ rendered := by
  have honly : ∀ {now : Files}, workspaceOf? around.depths now common = .ok workspace →
      ∀ found, workspaceOf? around.depths now common = .ok found → found.parser.command = [] := by
    intro now hnow found hfound
    rw [hnow] at hfound
    obtain rfl := Except.ok.inj hfound
    exact hprogram
  obtain ⟨houtcome, hfiles, -⟩ := run_conclusion around hformat (honly hworkspace)
  rw [hfiles]
  have hall := formatsAll_conclusion rfl hplan
    (eq_zero_of_outcomeOf (houtcome.symm.trans hdone))
  generalize (conclusion around.depths files common { paths }).files = after at hall
  -- The plan keeps the sources apart from their trees, so the run settles them all.
  have happarted : Apart plan.settings files plan.sources := by
    obtain ⟨_, _, -, -, hsources, hsettings⟩ := plan?_eq_ok hplan
    refine ⟨by rw [hsettings]; rfl, mem_name_of_sourcesOf? hsources, ?_⟩
    rintro other hother place hplace ⟨source, hsource, hlocated⟩
    exact (hapart source hsource place hlocated).1 other hother hplace
  obtain ⟨hafter, hsettled⟩ := hall.settled (.refl files) happarted fun _ h => h
  -- The configuration is no source either, so the check finds the same plan.
  have hconfig : ∀ found config, workspaceOf? around.depths files common = .ok found →
      found.source = some config → after.read? config = files.read? config := by
    intro found config hfound hconfig
    rw [hworkspace] at hfound
    obtain rfl := Except.ok.inj hfound
    refine hafter.read? fun place hplace ⟨source, hsource, hlocated⟩ => ?_
    exact (hapart source hsource place hlocated).2 config hconfig hplace
  have hworkspace' : workspaceOf? around.depths after common = .ok workspace :=
    workspaceOf?_again hafter.alike (hconfig workspace · hworkspace) hworkspace
  have hplan' : plan? around.depths after common { paths, check := true } = .ok plan :=
    plan?_again hafter.alike hconfig hplan
  obtain ⟨houtcome', -, hout'⟩ :=
    run_conclusion around' hcheck (hdepths ▸ honly hworkspace')
  rw [hdepths] at houtcome' hout'
  dsimp only
  rw [houtcome', hout']
  refine passes_iff around' hplan' fun source hsource => ?_
  obtain ⟨before, result, hexamined, hiff⟩ :=
    (hsettled source hsource).examine? hafter happarted harray hsource
  simp only [Settings.siblingTree?_eq_some] at hiff
  exact ⟨before, result, hexamined, hiff⟩

/-- A source without a tree that is formatted passes the check that follows. -/
theorem run_again_wire :
    let files : Files :=
      { root := "/w", scratch := "/t"
        entries := [({ anchor := .known "/w", names := ["a.v"] },
          .file (Text.utf8 "wire a;\n".toList))] }
    let words : List Text := ["format", "a.v"]
    let words' : List Text := ["format", "--check", "a.v"]
    let settings : Settings := { columns := Columns.standard, treeSuffix := ".ast.json" }
    let plan : Plan := { settings, sources := [{ names := ["a.v"] }] }
    Request.ofWords? words = .ok (some { common := {}, job := .format { paths := ["a.v"] } }) ∧
      Request.ofWords? words' =
        .ok (some { common := {}, job := .format { paths := ["a.v"], check := true } }) ∧
      plan? {} files {} { paths := ["a.v"] } = .ok plan ∧
      (run {} files words).outcome = .exited 0 ∧
      (run {} (run {} files words).console.files words').outcome = .exited 0 := by
  intro files words words' settings plan
  have hformat : Request.ofWords? words =
      .ok (some { common := {}, job := .format { paths := ["a.v"] } }) := rfl
  have hcheck : Request.ofWords? words' =
      .ok (some { common := {}, job := .format { paths := ["a.v"], check := true } }) := rfl
  have hworkspace : workspaceOf? {} files {} = .ok { root := { anchor := .known "/w" } } := rfl
  have hplan : plan? {} files {} { paths := ["a.v"] } = .ok plan := rfl
  have hread : readSource? files { names := ["a.v"] } = .ok "wire a;\n" :=
    readSource?_eq_ok.2 ⟨_, _, rfl, rfl, Files.decodeText?_utf8 _⟩
  have hdone : (run {} files words).outcome = .exited 0 := by
    have hexamined : settings.examine? files { names := ["a.v"] } = .ok (.formatted "wire a;\n"
        (formatLines Columns.standard "wire a;\n" noTreeWarning).1) := by
      unfold Settings.examine?
      rw [hread]
      rfl
    have hprogram : ∀ workspace, workspaceOf? {} files {} = .ok workspace →
        workspace.parser.command = [] := by
      intro workspace h
      rw [hworkspace] at h
      cases h
      rfl
    have hplain : ∀ c ∈ alignText Columns.standard "wire a;\n", c.isSurrogate = false := by
      decide +kernel
    obtain ⟨bytes, hbytes⟩ := Text.exists_toUtf8?_iff.2 hplain
    have hafter := fun progress => @Progress.after_overwritten { paths := ["a.v"] }
      { names := ["a.v"] } progress "wire a;\n"
      (formatLines Columns.standard "wire a;\n" noTreeWarning).1 bytes (by decide)
      (by decide +kernel) hbytes (Text.isEncodable_map_char "Formatted a.v (fallback)\n".toList)
    obtain ⟨houtcome, -, -⟩ := run_conclusion {} hformat hprogram
    rw [houtcome, conclusion, hplan]
    dsimp only
    rw [if_neg (List.cons_ne_nil _ _), Progress.visit_cons_eq_none.2
      ⟨_, Progress.step_eq_none.2 ⟨_, hexamined, hafter _⟩, rfl⟩]
    rfl
  have hagain := run_again {} {} rfl hformat hcheck hworkspace rfl hplan rfl (by
    intro source hsource place hplace
    obtain rfl := List.mem_singleton.1 hsource
    cases hplace
    refine ⟨fun other hother hbeside => ?_, fun _ h => nomatch h⟩
    obtain rfl := List.mem_singleton.1 hother
    exact absurd hbeside (by decide)) hdone
  refine ⟨hformat, hcheck, hplan, hdone, (hagain.2 fun source hsource tree _ hload => ?_).1⟩
  obtain rfl := List.mem_singleton.1 hsource
  cases hload

end VerilogLayout.Command

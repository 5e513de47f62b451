import VerilogLayout.Proofs.Command.Collect
import VerilogLayout.Proofs.Document.Problem

/-!
# One source after the other

`Settings.examine?` says what comes of a source on given files, and `Progress.after` what the
options make of that, up to a text with surrogates that can be neither printed nor written; together
they are the `Progress.step` of a run. `reaches_formatSource` says
that a run without a program for trees does just this for a source, and `reaches_foldlM` that it
does so for one source after the other: `Progress.visit`.
-/

namespace VerilogLayout

/-- A tree that is not made leaves the files alone. -/
theorem formatDocument_files (depths : Depths) (columns : Columns) (files : Files) (text : Text)
    (label : Option Text) {source : TreeSource}
    (h : source = .absent ∨ ∃ path, source = .file path) :
    (formatDocument depths columns files text label source).2.2 = files := by
  have hresolve : (source.resolve depths files).2.2 = files := by
    obtain rfl | ⟨path, rfl⟩ := h
    · rfl
    · unfold TreeSource.resolve
      dsimp only
      split
      · rfl
      · split <;> rfl
  unfold formatDocument
  generalize source.resolve depths files = resolved at hresolve ⊢
  obtain ⟨tree, events, files'⟩ := resolved
  obtain rfl := hresolve
  dsimp only
  split
  · rfl
  · rfl
  · split <;> rfl

namespace Command

/-- What the sources of a run are formatted with. -/
structure Settings where
  depths : Depths := {}
  columns : Columns
  /-- The tree file that is given. -/
  tree : Option Path := none
  /-- What the name of a tree file has behind the name of its source. -/
  treeSuffix : Text

/-- What comes of a source. -/
inductive Finding where
  | unreadable (message : Text)
  /-- The source has a tree that has no text. -/
  | failed (errors : List Text)
  | formatted (before : Text) (formatted : Formatted)

/-- What comes of a source whose text is formatted. -/
def Finding.ofFormatted (before : Text) (formatted : Formatted) : Finding :=
  if formatted.succeeded then .formatted before formatted else .failed formatted.errors

namespace Settings

variable (settings : Settings) (files : Files) (source : Path)

/-- The file beside a source that may hold its tree. -/
def sibling : Path :=
  source.withName (source.name ++ settings.treeSuffix)

/-- Where the tree of a source comes from. -/
def treeSource? : Except Failure TreeSource :=
  match settings.tree with
  | some path => .ok (.file path)
  | none =>
      let name := source.name ++ settings.treeSuffix
      if !Path.isFileName name then
        .error (.invalidName name)
      else
        .ok (if files.isFile (settings.sibling source) then .file (settings.sibling source)
          else .absent)

/-- The tree is read from a file or there is none. -/
theorem treeSource?_eq_ok {tree : TreeSource} (h : settings.treeSource? files source = .ok tree) :
    tree = .absent ∨ ∃ path, tree = .file path := by
  unfold treeSource? at h
  dsimp only at h
  split at h
  · next path _ => exact .inr ⟨path, (Except.ok.inj h).symm⟩
  · split at h
    · cases h
    · obtain rfl := Except.ok.inj h
      split
      · exact .inr ⟨_, rfl⟩
      · exact .inl rfl

/-- A text formatted as that of a source. -/
def format? (text : Text) : Except Failure Formatted := do
  let tree ← settings.treeSource? files source
  (formatDocument settings.depths settings.columns files text (some source.toText) tree).1.mapError
    .making

variable {settings files source} in
/-- A source whose tree is known is formatted as a document with that tree. -/
theorem format?_of_tree {tree : TreeSource} (h : settings.treeSource? files source = .ok tree)
    (text : Text) :
    settings.format? files source text =
      (formatDocument settings.depths settings.columns files text (some source.toText)
        tree).1.mapError
        .making := by
  unfold format?
  rw [h]
  rfl

variable {settings files source} in
/-- Without a source for the tree nothing is formatted. -/
theorem format?_of_failure {failure : Failure}
    (h : settings.treeSource? files source = .error failure) (text : Text) :
    settings.format? files source text = .error failure := by
  unfold format?
  rw [h]
  rfl

/-- What comes of a source, unless it ends the run. -/
def examine? : Except Failure Finding :=
  match readSource? files source with
  | .error message => .ok (.unreadable message)
  | .ok text => (settings.format? files source text).map (Finding.ofFormatted text)

variable {settings files source}

/-- A source that comes out formatted has been read and its text formatted without errors. -/
theorem examine?_eq_formatted {before : Text} {formatted : Formatted}
    (h : settings.examine? files source = .ok (.formatted before formatted)) :
    readSource? files source = .ok before ∧ settings.format? files source before = .ok formatted ∧
      formatted.succeeded := by
  unfold examine? at h
  cases hread : readSource? files source with
  | error message =>
      rw [hread] at h
      cases h
  | ok text =>
      rw [hread] at h
      obtain ⟨result, hformat, h⟩ := map_eq_ok.1 h
      unfold Finding.ofFormatted at h
      split at h
      · next hsucceeded =>
          obtain ⟨rfl, rfl⟩ := Finding.formatted.inj h
          exact ⟨rfl, hformat, hsucceeded⟩
      · cases h

/-- A formatted source is a formatted document. -/
theorem format?_eq_ok {text : Text} {formatted : Formatted} :
    settings.format? files source text = .ok formatted ↔
      ∃ tree, settings.treeSource? files source = .ok tree ∧
        (formatDocument settings.depths settings.columns files text (some source.toText) tree).1 =
          .ok formatted := by
  unfold format?
  simp only [bind_eq_ok, mapError_eq_ok]

/-- A formatted source counts as changed if and only if it has another text. -/
theorem changed_iff {text : Text} {formatted : Formatted}
    (h : settings.format? files source text = .ok formatted) :
    formatted.changed = true ↔ formatted.text ≠ text := by
  obtain ⟨tree, -, hdocument⟩ := format?_eq_ok.1 h
  exact VerilogLayout.changed_iff hdocument

end Settings

namespace FormatOptions

/-- `shows options` holds if an option keeps a run from writing files. -/
def shows (options : FormatOptions) : Bool :=
  options.check || options.diff || options.toOutput

/-- What is printed for a source. -/
def said (options : FormatOptions) (source : Path) (before : Text) (formatted : Formatted) : Text :=
  let about := source.toText ++ " (" ++ formatted.mode.name ++ ")"
  if options.toOutput then formatted.text
  else if options.check then "Would reformat " ++ about ++ "\n"
  else if options.diff then sourceDiff source before formatted.text
  else "Formatted " ++ about ++ "\n"

end FormatOptions

/-- What a run has done so far. -/
structure Progress where
  files : Files
  out : Text := []
  tally : Tally := {}

namespace Progress

/-- The text printed, or the failure of a text that has surrogates. -/
def printed (progress : Progress) (text : Text) : Option Failure × Progress :=
  match text.toUtf8? with
  | .ok _ => (none, { progress with out := progress.out ++ text })
  | .error e => (some (.surrogates e), progress)

/-- The source overwritten with a text. One that has surrogates leaves the source without bytes. -/
def overwritten (progress : Progress) (source : Path) (text : Text) : Option Failure × Progress :=
  match text.toUtf8? with
  | .ok bytes => (none, { progress with files := progress.files.rewritten source bytes })
  | .error e =>
    (some (.surrogates e), { progress with files := progress.files.rewritten source [] })

/-- What the options make of a source, unless that ends the run. -/
def after (options : FormatOptions) (source : Path) (progress : Progress) :
    Finding → Option Failure × Progress
  | .unreadable _ | .failed _ =>
      (none,
        { progress with tally := { progress.tally with errors := progress.tally.errors + 1 } })
  | .formatted before formatted =>
      let text := options.said source before formatted
      if options.toOutput then
        progress.printed text
      else if !formatted.changed then
        (none, progress)
      else
        let progress :=
          { progress with tally := { progress.tally with changed := progress.tally.changed + 1 } }
        if options.shows then
          progress.printed text
        else
          match progress.overwritten source formatted.text with
          | (none, progress) => progress.printed text
          | ended => ended

/-- The console of a run. -/
def console (progress : Progress) (err : Text) : Console :=
  { files := progress.files, out := progress.out, err }

/-- What a run does with a source: it ends there, or goes on as the options say. -/
def step (settings : Settings) (options : FormatOptions) (source : Path) (progress : Progress) :
    Option Failure × Progress :=
  match settings.examine? progress.files source with
  | .error failure => (some failure, progress)
  | .ok finding => progress.after options source finding

/-- What a run does with the sources one after the other, up to one that ends it. -/
def visit (settings : Settings) (options : FormatOptions) (progress : Progress) :
    List Path → Option Failure × Progress
  | [] => (none, progress)
  | source :: rest =>
      match progress.step settings options source with
      | (some failure, progress) => (some failure, progress)
      | (none, progress) => progress.visit settings options rest

variable {settings : Settings} {options : FormatOptions} {source : Path}
  {progress next : Progress}

/-- Printing goes on exactly with a text without surrogates. -/
theorem printed_eq_none {text : Text} :
    progress.printed text = (none, next) ↔
      text.IsEncodable ∧ next = { progress with out := progress.out ++ text } := by
  rw [← Text.exists_toUtf8?_iff]
  unfold printed
  cases text.toUtf8? with
  | ok bytes => simp [eq_comm]
  | error e => simp

/-- Whatever is printed, the files and the counts stay as they are. -/
theorem printed_keeps (text : Text) :
    (progress.printed text).2.files = progress.files ∧
      (progress.printed text).2.tally = progress.tally := by
  unfold printed
  split <;> exact ⟨rfl, rfl⟩

/-- A run goes on behind a source if it finds something and the options do not end it. -/
theorem step_eq_none :
    progress.step settings options source = (none, next) ↔
      ∃ finding, settings.examine? progress.files source = .ok finding ∧
        progress.after options source finding = (none, next) := by
  unfold step
  cases settings.examine? progress.files source <;> simp

/-- A run ends at a source that cannot be examined or that the options make it end at. -/
theorem step_eq_some {failure : Failure} :
    progress.step settings options source = (some failure, next) ↔
      settings.examine? progress.files source = .error failure ∧ progress = next ∨
        ∃ finding, settings.examine? progress.files source = .ok finding ∧
          progress.after options source finding = (some failure, next) := by
  unfold step
  cases settings.examine? progress.files source <;> simp

/-- A run comes to the end of its sources if and only if the first one does not end it and it comes
to the end of the others. -/
theorem visit_cons_eq_none {rest : List Path} {reached : Progress} :
    progress.visit settings options (source :: rest) = (none, reached) ↔
      ∃ next, progress.step settings options source = (none, next) ∧
        next.visit settings options rest = (none, reached) := by
  rw [visit]
  rcases progress.step settings options source with ⟨_ | failure, next⟩ <;> simp

end Progress

/-- The part goes on to where the run gets next, or ends it there. -/
def Reaches (part : Cli Tally) (terms : RunTerms) (progress : Progress) :
    Option Failure × Progress → Prop
  | (none, next) =>
      ∀ err, Ends part terms (progress.console err) (.ok next.tally) next.files next.out
  | (some failure, next) =>
      ∀ err, Ends part terms (progress.console err) (.error (.failure failure)) next.files next.out

namespace Reaches

variable {α : Type} {part : Cli α} {terms : RunTerms} {progress : Progress}

theorem pure (tally : Tally) :
    Reaches (pure tally) terms progress (none, { progress with tally }) :=
  fun _ => .pure tally

/-- What follows a part that finds something out gets to where it gets without the part. -/
theorem bind_ok {a : α} {next : α → Cli Tally} {result : Option Failure × Progress}
    (h : ∀ err, Answers part terms (progress.console err) (.ok a))
    (hnext : Reaches (next a) terms progress result) :
    Reaches (part >>= next) terms progress result := by
  obtain ⟨_ | failure, reached⟩ := result
  · exact fun err => Ends.bind_ok (h err) hnext
  · exact fun err => Ends.bind_ok (h err) hnext

/-- A part that finds nothing but a failure ends the run. -/
theorem bind_error {failure : Failure} {next : α → Cli Tally}
    (h : ∀ err, Answers part terms (progress.console err) (.error failure)) :
    Reaches (part >>= next) terms progress (some failure, progress) :=
  fun err => Ends.bind_error (h err)

/-- What follows a part goes on from where the part gets. -/
theorem andThen {part : Cli Tally} {next : Tally → Cli Tally} {reached : Progress}
    {result : Option Failure × Progress} (h : Reaches part terms progress (none, reached))
    (hnext : Reaches (next reached.tally) terms reached result) :
    Reaches (part >>= next) terms progress result := by
  obtain ⟨_ | failure, final⟩ := result
  · exact fun err => (h err).bind_ok hnext
  · exact fun err => (h err).bind_ok hnext

/-- What follows a part that has no result goes on from what the part leaves. -/
theorem behind {part : Cli Unit} {next : Cli Tally} {reached : Progress}
    {result : Option Failure × Progress}
    (h : ∀ err, Ends part terms (progress.console err) (.ok ()) reached.files reached.out)
    (hnext : Reaches next terms reached result) :
    Reaches (part >>= fun _ => next) terms progress result := by
  obtain ⟨_ | failure, final⟩ := result
  · exact fun err => (h err).bind_ok hnext
  · exact fun err => (h err).bind_ok hnext

/-- What is printed is printed, or ends the run. -/
theorem print (text : Text) (tally : Tally) :
    Reaches (Cli.write text >>= fun _ => Pure.pure tally) terms progress
      ({ progress with tally }.printed text) := by
  unfold Progress.printed
  cases htext : text.toUtf8? with
  | ok bytes =>
      have hencodable := Text.exists_toUtf8?_iff.1 ⟨bytes, htext⟩
      exact fun err => (Ends.write hencodable).bind_ok fun _ => .pure _
  | error e => exact fun err => (Ends.write_surrogates htext).bind_error

end Reaches

/-! ## What a run does -/

section
variable {terms : RunTerms} {console : Console}

/-- Without a program the tree of a source is the one given or the one beside it. -/
theorem answers_treeSourceFor (settings : Settings) {workspace : Workspace}
    (hprogram : workspace.parser.command = [])
    (hsuffix : workspace.parser.treeSuffix = settings.treeSuffix) (source : Path) :
    Answers (treeSourceFor workspace settings.tree source) terms console
      (settings.treeSource? console.files source) := by
  unfold treeSourceFor Settings.treeSource?
  cases settings.tree with
  | some path => exact .pure _
  | none =>
      have hmade : treeSourceFor.made workspace source = pure none := by
        unfold treeSourceFor.made TreeMaker.ofCommand?
        dsimp only
        rw [dif_neg (fun h => h hprogram)]
      dsimp only
      rw [hmade, hsuffix]
      refine Answers.bind_ok (.pure none) fun err => ?_
      dsimp only
      split
      · exact .fail _
      · exact Answers.bind_ok .files fun err => .pure _

end

/-- A source that is read is a file with a text. -/
theorem readSource?_eq_ok {files : Files} {source : Path} {text : Text} :
    readSource? files source = .ok text ↔
      ∃ place bytes, files.locate source = .ok place ∧ files.entry? place = some (.file bytes) ∧
        Files.decodeText? bytes = .ok text := by
  have hread : readSource? files source = .ok text ↔
      ∃ bytes, files.read? source = .ok bytes ∧ Files.decodeText? bytes = .ok text := by
    unfold readSource?
    cases files.read? source <;> simp [mapError_eq_ok]
  rw [hread]
  constructor
  · rintro ⟨bytes, hbytes, hdecode⟩
    obtain ⟨place, hplace, hfile⟩ := Files.read?_eq_ok.1 hbytes
    exact ⟨place, bytes, hplace, hfile, hdecode⟩
  · rintro ⟨place, bytes, hplace, hfile, hdecode⟩
    exact ⟨bytes, Files.read?_eq_ok.2 ⟨place, hplace, hfile⟩, hdecode⟩

section
variable {terms : RunTerms} (options : FormatOptions) {source : Path} {progress : Progress}

/-- A source that has been read is overwritten with the bytes of a text, or without any. -/
theorem ends_writeSource {console : Console} {before : Text}
    (hread : readSource? console.files source = .ok before) (text : Text) :
    Ends (writeSource source text) terms console
      (match text.toUtf8? with
        | .ok _ => .ok ()
        | .error e => .error (.failure (.surrogates e)))
      (console.files.rewritten source (text.toUtf8?.toOption.getD [])) console.out := by
  obtain ⟨place, bytes, hplace, hfile, -⟩ := readSource?_eq_ok.1 hread
  have hwrite := Files.write?_file hplace hfile (text.toUtf8?.toOption.getD [])
  have hrewritten : console.files.rewritten source (text.toUtf8?.toOption.getD []) =
      console.files.put place (.file (text.toUtf8?.toOption.getD [])) := by
    unfold Files.rewritten
    rw [hplace]
  rw [hrewritten]
  unfold writeSource
  refine Ends.bind_ok Answers.files fun _ => ?_
  show Ends (Cli.orFail .file (console.files.write? source _) >>= _) _ _ _ _ _
  rw [hwrite]
  refine Ends.bind_ok (Answers.orFail _ (.ok _)) fun _ => ?_
  refine (Ends.setFiles _).bind_ok fun _ => ?_
  cases text.toUtf8? with
  | ok bytes => exact Ends.bind_ok (Answers.pure bytes) fun _ => .pure ()
  | error e => exact Ends.bind_error (Answers.fail (.surrogates e))

/-- A formatted source that has been read is delivered as the options say. -/
theorem reaches_deliver {before : Text} (hread : readSource? progress.files source = .ok before)
    (formatted : Formatted) :
    Reaches (deliver options source before formatted progress.tally) terms progress
      (progress.after options source (.formatted before formatted)) := by
  have hwrite : ∀ err,
      Ends (writeSource source formatted.text) terms (progress.console err) _ _ _ :=
    fun err => ends_writeSource hread formatted.text
  unfold deliver Progress.after FormatOptions.said FormatOptions.shows
  dsimp only
  split
  · exact Reaches.print _ _
  · next hout =>
    split
    · exact .pure _
    · split
      · next hcheck =>
        rw [hcheck, Bool.true_or, Bool.true_or, if_pos rfl]
        exact Reaches.print _ _
      · next hcheck =>
        split
        · next hdiff =>
          rw [hdiff, Bool.or_true, Bool.true_or, if_pos rfl]
          exact Reaches.print _ _
        · next hdiff =>
          rw [if_neg (by simp [hout, hcheck, hdiff])]
          unfold Progress.overwritten
          cases htext : formatted.text.toUtf8? with
          | error e =>
              rw [htext] at hwrite
              exact fun err => (hwrite err).bind_error
          | ok bytes =>
              rw [htext] at hwrite
              let tally : Tally := { progress.tally with changed := progress.tally.changed + 1 }
              let written : Progress :=
                { progress with files := progress.files.rewritten source bytes, tally }
              have hprint : ∀ text, Reaches (Cli.write text >>= fun _ => pure tally) terms written
                  (written.printed text) := fun text => .print text tally
              exact Reaches.behind hwrite (hprint _)

/-- A run without a program does with a source what the step says. -/
theorem reaches_formatSource {settings : Settings} {workspace : Workspace}
    (hdepths : terms.around.depths = settings.depths) (hprogram : workspace.parser.command = [])
    (hsuffix : workspace.parser.treeSuffix = settings.treeSuffix) :
    Reaches (formatSource options workspace settings.columns settings.tree progress.tally source)
      terms progress (progress.step settings options source) := by
  have hfiles : ∀ err, Answers Cli.files terms (progress.console err) (.ok progress.files) :=
    fun _ => .files
  have htree : ∀ err, Answers (treeSourceFor workspace settings.tree source) terms
      (progress.console err) (settings.treeSource? progress.files source) := fun _ =>
    answers_treeSourceFor settings hprogram hsuffix source
  unfold formatSource Progress.step Settings.examine?
  refine Reaches.bind_ok hfiles ?_
  cases hread : readSource? progress.files source with
  | error message => exact Reaches.bind_ok (fun _ => .complain _) (.pure _)
  | ok text =>
      dsimp only
      cases hfound : settings.treeSource? progress.files source with
      | error failure =>
          rw [Settings.format?_of_failure hfound]
          rw [hfound] at htree
          exact Reaches.bind_error htree
      | ok tree =>
          have hkept := formatDocument_files settings.depths settings.columns progress.files text
            (some source.toText) (settings.treeSource?_eq_ok _ _ hfound)
          rw [Settings.format?_of_tree hfound]
          rw [hfound] at htree
          refine Reaches.bind_ok htree (Reaches.bind_ok (fun _ => .read) ?_)
          refine Reaches.bind_ok hfiles ?_
          rw [hdepths]
          -- From here on the run and the step look at one formatted document.
          generalize formatDocument settings.depths settings.columns progress.files text _ tree =
            document
            at hkept ⊢
          obtain ⟨result, events, files⟩ := document
          obtain rfl := hkept
          refine Reaches.bind_ok (fun _ => Ends.setFiles _) ?_
          refine Reaches.bind_ok (fun _ => .tell _) ?_
          cases result with
          | error e => exact Reaches.bind_error fun _ => .fail _
          | ok formatted =>
              refine Reaches.bind_ok (fun _ => .pure formatted) ?_
              show Reaches _ terms progress
                (progress.after options source (.ofFormatted text formatted))
              unfold Finding.ofFormatted
              split
              · exact Reaches.bind_ok (fun _ => .tell _) (reaches_deliver options hread formatted)
              · refine Reaches.bind_ok (fun _ => .complain _) ?_
                refine Reaches.bind_ok (fun _ => .forM (fun _ _ => .complain _) _) ?_
                exact .pure _

/-- A run without a program does with the sources what the steps say. -/
theorem reaches_foldlM {settings : Settings} {workspace : Workspace}
    (hdepths : terms.around.depths = settings.depths) (hprogram : workspace.parser.command = [])
    (hsuffix : workspace.parser.treeSuffix = settings.treeSuffix) (sources : List Path) :
    Reaches (sources.foldlM (formatSource options workspace settings.columns settings.tree)
      progress.tally) terms progress (progress.visit settings options sources) := by
  induction sources generalizing progress with
  | nil => exact .pure progress.tally
  | cons source rest ih =>
      have hsource : Reaches (formatSource options workspace settings.columns settings.tree
          progress.tally source) terms progress (progress.step settings options source) :=
        reaches_formatSource options hdepths hprogram hsuffix
      rw [List.foldlM_cons]
      unfold Progress.visit
      cases hstep : progress.step settings options source with
      | mk failure? reached =>
          rw [hstep] at hsource
          cases failure? with
          | some failure => exact fun err => (hsource err).bind_error
          | none => exact hsource.andThen ih

end
end Command
end VerilogLayout

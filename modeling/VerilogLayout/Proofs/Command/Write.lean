import VerilogLayout.Proofs.Command.Conclusion

/-!
# What a run writes

A run overwrites a source with its formatted text, if the source can be read, comes out without
errors and has another text than before, and no option keeps the run from writing: these are the
ways of `Treats`. A text that has surrogates has no bytes, and this is found out only when the
source has been emptied: such a source is left without bytes, and the run ends there with a failure.
`run_writes` is the result: all that a run does to the files is to treat its sources so, one after
the other, up to one that ends it. So no other file changes, and every file that changes ends up
with the bytes of a formatted text or, at the end of a run that fails, with none. -/

namespace VerilogLayout

namespace Files

variable {files : Files} {path place : Path} {old : Bytes}

/-- A file is rewritten at the place that its path leads to. -/
theorem rewritten_eq (hplace : files.locate path = .ok place) (bytes : Bytes) :
    files.rewritten path bytes = files.put place (.file bytes) := by
  unfold rewritten
  rw [hplace]

end Files

namespace Command

variable {settings : Settings} {options : FormatOptions} {source place : Path}
  {sources : List Path} {files after : Files} {failure? : Option Failure}

/-! ## One source -/

/-- Printing a text goes on, or fails because there are surrogates in the text. -/
inductive Prints (text : Text) : Option Failure → Prop
  | all (h : text.IsEncodable) : Prints text none
  | nothing {e : SurrogateError} (h : text.toUtf8? = .error e) : Prints text (some (.surrogates e))

/-- What becomes of the files at a source, and the failure with which the run ends there if it
does. -/
inductive Treats (settings : Settings) (options : FormatOptions) (source : Path) (files : Files) :
    Option Failure → Files → Prop
  | unexamined {failure : Failure} (h : settings.examine? files source = .error failure) :
      Treats settings options source files (some failure) files
  | unreadable {message : Text} (h : settings.examine? files source = .ok (.unreadable message)) :
      Treats settings options source files none files
  | failed {errors : List Text} (h : settings.examine? files source = .ok (.failed errors)) :
      Treats settings options source files none files
  | same {before : Text} {formatted : Formatted}
      (h : settings.examine? files source = .ok (.formatted before formatted))
      (hsame : formatted.text = before) : Treats settings options source files none files
  | shown {before : Text} {formatted : Formatted} {failure? : Option Failure}
      (h : settings.examine? files source = .ok (.formatted before formatted))
      (hshows : options.shows) (hsaid : Prints (options.said source before formatted) failure?) :
      Treats settings options source files failure? files
  | overwritten {before : Text} {formatted : Formatted} {bytes : Bytes} {failure? : Option Failure}
      (h : settings.examine? files source = .ok (.formatted before formatted))
      (hother : formatted.text ≠ before) (hshows : ¬ options.shows)
      (hbytes : formatted.text.toUtf8? = .ok bytes)
      (hsaid : Prints (options.said source before formatted) failure?) :
      Treats settings options source files failure? (files.rewritten source bytes)
  | emptied {before : Text} {formatted : Formatted} {e : SurrogateError}
      (h : settings.examine? files source = .ok (.formatted before formatted))
      (hother : formatted.text ≠ before) (hshows : ¬ options.shows)
      (hbytes : formatted.text.toUtf8? = .error e) :
      Treats settings options source files (some (.surrogates e)) (files.rewritten source [])

namespace Progress

variable {progress : Progress} {before : Text} {formatted : Formatted}

/-- What is printed leaves the files as they are. -/
theorem prints_printed (text : Text) :
    Prints text (progress.printed text).1 ∧ (progress.printed text).2.files = progress.files := by
  unfold printed
  cases htext : text.toUtf8? with
  | ok bytes => exact ⟨.all (Text.exists_toUtf8?_iff.1 ⟨bytes, htext⟩), rfl⟩
  | error e => exact ⟨.nothing htext, rfl⟩

/-- What a run does with a formatted source treats the source. -/
theorem treats_after_formatted
    (h : settings.examine? progress.files source = .ok (.formatted before formatted)) :
    let result := progress.after options source (.formatted before formatted)
    Treats settings options source progress.files result.1 result.2.files := by
  have hchanged := Settings.changed_iff (Settings.examine?_eq_formatted h).2.1
  -- The ways that only print leave the files as they are.
  have hprinted : ∀ progress' : Progress, progress'.files = progress.files → options.shows →
      let result := progress'.printed (options.said source before formatted)
      Treats settings options source progress.files result.1 result.2.files := by
    intro progress' hfiles hshows
    obtain ⟨hsaid, hkept⟩ := @prints_printed progress' (options.said source before formatted)
    dsimp only
    rw [hkept, hfiles]
    exact .shown h hshows hsaid
  unfold after
  dsimp only
  split
  · next hout => exact hprinted progress rfl (by simp [FormatOptions.shows, hout])
  · split
    · next hsame =>
        refine .same h (by_contra fun hother => ?_)
        rw [hchanged.2 hother] at hsame
        cases hsame
    · next hother =>
        replace hother : formatted.text ≠ before := hchanged.1 (by simpa using hother)
        split
        · next hshows => exact hprinted _ rfl hshows
        · next hshows =>
            unfold overwritten
            cases htext : formatted.text.toUtf8? with
            | error e => exact .emptied h hother hshows htext
            | ok bytes =>
                dsimp only
                generalize hwritten : ({ progress with
                  files := progress.files.rewritten source bytes
                  tally := { progress.tally with changed := progress.tally.changed + 1 } } :
                    Progress) = written
                obtain ⟨hsaid, hkept⟩ :=
                  @prints_printed written (options.said source before formatted)
                rw [hkept, ← hwritten] at *
                exact .overwritten h hother hshows htext hsaid

/-- A run that may write goes on behind a source whose new text has bytes. -/
theorem after_overwritten {bytes : Bytes} (hshows : ¬ options.shows) (hchanged : formatted.changed)
    (hbytes : formatted.text.toUtf8? = .ok bytes)
    (hsaid : (options.said source before formatted).IsEncodable) :
    progress.after options source (.formatted before formatted) =
      (none,
        { files := progress.files.rewritten source bytes
          out := progress.out ++ options.said source before formatted
          tally := { progress.tally with changed := progress.tally.changed + 1 } }) := by
  have hout : ¬ options.toOutput := fun h => hshows (by simp [FormatOptions.shows, h])
  unfold after overwritten
  dsimp only
  rw [if_neg hout, if_neg (by simpa using hchanged), if_neg hshows, hbytes]
  exact printed_eq_none.2 ⟨hsaid, rfl⟩

/-- A step treats the source. -/
theorem treats_step (settings : Settings) (options : FormatOptions) (source : Path)
    (progress : Progress) :
    let result := progress.step settings options source
    Treats settings options source progress.files result.1 result.2.files := by
  unfold step
  cases hexamined : settings.examine? progress.files source with
  | error failure => exact .unexamined hexamined
  | ok finding =>
      cases finding with
      | unreadable message => exact .unreadable hexamined
      | failed errors => exact .failed hexamined
      | formatted before formatted => exact treats_after_formatted hexamined

end Progress

namespace Treats

/-- A source that comes out with another text is a file with a text. -/
theorem exists_place {before : Text} {formatted : Formatted}
    (h : settings.examine? files source = .ok (.formatted before formatted)) :
    ∃ place bytes, files.locate source = .ok place ∧ files.entry? place = some (.file bytes) ∧
      Files.decodeText? bytes = .ok before :=
  readSource?_eq_ok.1 (Settings.examine?_eq_formatted h).1

variable (h : Treats settings options source files failure? after)
include h

/-- A treated source leaves all names as they are. -/
theorem alike : Files.Alike files after := by
  have hput : ∀ {before formatted} (bytes : Bytes),
      settings.examine? files source = .ok (.formatted before formatted) →
        Files.Alike files (files.rewritten source bytes) := by
    intro before formatted bytes h
    obtain ⟨place, old, hplace, hfile, -⟩ := exists_place h
    rw [Files.rewritten_eq hplace]
    exact .put hfile _
  cases h with
  | unexamined _ | unreadable _ | failed _ | same _ _ | shown _ _ _ => exact .refl files
  | overwritten h _ _ _ _ | emptied h _ _ _ => exact hput _ h

/-- Showing a source leaves the files as they are. -/
theorem eq_of_shows (hshows : options.shows) : after = files := by
  cases h with
  | unexamined _ | unreadable _ | failed _ | same _ _ | shown _ _ _ => rfl
  | overwritten _ _ hwrites _ _ | emptied _ _ hwrites _ => exact absurd hshows hwrites

/-- What a file holds after a treated source is what it held before, unless it is the source and
holds the formatted text now, or nothing at the end of the run. -/
theorem entry_cases (place : Path) :
    after.entry? place = files.entry? place ∨
      ∃ bytes before formatted, files.locate source = .ok place ∧
        files.entry? place = some (.file bytes) ∧ Files.decodeText? bytes = .ok before ∧
        settings.examine? files source = .ok (.formatted before formatted) ∧
        formatted.text ≠ before ∧
        ((∃ encoded, formatted.text.toUtf8? = .ok encoded ∧
            after.entry? place = some (.file encoded)) ∨
          ∃ e, formatted.text.toUtf8? = .error e ∧ failure? = some (.surrogates e) ∧
            after.entry? place = some (.file [])) := by
  have hput : ∀ {before formatted} (new : Bytes),
      settings.examine? files source = .ok (.formatted before formatted) →
        Files.entry? (files.rewritten source new) place = files.entry? place ∨
          ∃ bytes, files.locate source = .ok place ∧ files.entry? place = some (.file bytes) ∧
            Files.decodeText? bytes = .ok before ∧
            Files.entry? (files.rewritten source new) place = some (.file new) := by
    intro before formatted new h
    obtain ⟨there, bytes, hthere, hfile, hdecoded⟩ := exists_place h
    rw [Files.rewritten_eq hthere, Files.entry?_put hfile]
    by_cases hplace : place = there
    · subst hplace
      exact .inr ⟨bytes, hthere, hfile, hdecoded, if_pos rfl⟩
    · exact .inl (if_neg hplace)
  -- Only the last two ways touch a file, and they put their bytes at the same place.
  cases h with
  | unexamined _ | unreadable _ | failed _ | same _ _ | shown _ _ _ => exact .inl rfl
  | @overwritten before formatted new _ h hother _ hbytes _ =>
      refine (hput new h).imp_right ?_
      rintro ⟨bytes, hplace, hfile, hdecoded, hnew⟩
      exact ⟨bytes, before, formatted, hplace, hfile, hdecoded, h, hother, .inl ⟨new, hbytes, hnew⟩⟩
  | @emptied before formatted e h hother _ hbytes =>
      refine (hput [] h).imp_right ?_
      rintro ⟨bytes, hplace, hfile, hdecoded, hnew⟩
      exact ⟨bytes, before, formatted, hplace, hfile, hdecoded, h, hother,
        .inr ⟨e, hbytes, rfl, hnew⟩⟩

end Treats

/-! ## All sources -/

/-- What becomes of the files at the sources one after the other, up to one that ends the run with a
failure. -/
inductive TreatsAll (settings : Settings) (options : FormatOptions) :
    List Path → Files → Option Failure → Files → Prop
  | nil (files : Files) : TreatsAll settings options [] files none files
  | stop {source : Path} {rest : List Path} {files after : Files} {failure : Failure}
      (h : Treats settings options source files (some failure) after) :
      TreatsAll settings options (source :: rest) files (some failure) after
  | cons {source : Path} {rest : List Path} {files middle after : Files}
      {failure? : Option Failure} (h : Treats settings options source files none middle)
      (hrest : TreatsAll settings options rest middle failure? after) :
      TreatsAll settings options (source :: rest) files failure? after

/-- A run treats its sources up to one that ends it. -/
theorem Progress.treats_visit (settings : Settings) (options : FormatOptions)
    (progress : Progress) (sources : List Path) :
    let result := progress.visit settings options sources
    TreatsAll settings options sources progress.files result.1 result.2.files := by
  induction sources generalizing progress with
  | nil => exact .nil _
  | cons source sources ih =>
      have hstep := treats_step settings options source progress
      unfold visit
      generalize progress.step settings options source = result at hstep ⊢
      obtain ⟨_ | failure, next⟩ := result
      · exact .cons hstep (ih next)
      · exact .stop hstep

namespace TreatsAll

/-- Any number of treated sources leave all names as they are. -/
theorem alike (h : TreatsAll settings options sources files failure? after) :
    Files.Alike files after := by
  induction h with
  | nil files => exact .refl files
  | stop h => exact h.alike
  | cons h _ ih => exact h.alike.trans ih

/-- Showing any number of sources leaves the files as they are. -/
theorem eq_of_shows (h : TreatsAll settings options sources files failure? after)
    (hshows : options.shows) : after = files := by
  induction h with
  | nil files => rfl
  | stop h => exact h.eq_of_shows hshows
  | cons h _ ih => exact ih.trans (h.eq_of_shows hshows)

/-- What a file holds after the sources is what it held before, unless it is one of the sources and
holds a formatted text now, or nothing at the end of a run that fails. -/
theorem entry_cases (h : TreatsAll settings options sources files failure? after) (place : Path) :
    after.entry? place = files.entry? place ∨
      ∃ source ∈ sources, files.locate source = .ok place ∧
        ∃ middle before formatted,
          settings.examine? middle source = .ok (.formatted before formatted) ∧
          formatted.text ≠ before ∧
          ((∃ bytes, formatted.text.toUtf8? = .ok bytes ∧
              after.entry? place = some (.file bytes)) ∨
            ∃ e, formatted.text.toUtf8? = .error e ∧ failure? = some (.surrogates e) ∧
              after.entry? place = some (.file [])) := by
  induction h with
  | nil files => exact .inl rfl
  | @stop source rest files after failure h =>
      refine (h.entry_cases place).imp_right ?_
      rintro ⟨_, before, formatted, hplace, -, -, hexamined, hother, hentry⟩
      exact ⟨source, List.mem_cons_self, hplace, files, before, formatted, hexamined, hother,
        hentry⟩
  | @cons source rest files middle after failure? h hrest ih =>
      -- A later source that leads to the same place has the last word on it.
      obtain hlater | ⟨later, hlater, hplace, hformatted⟩ := ih
      · rw [hlater]
        obtain hkept | ⟨_, before, formatted, hplace, -, -, hexamined, hother, hentry⟩ :=
          h.entry_cases place
        · exact .inl hkept
        · refine .inr ⟨source, List.mem_cons_self, hplace, files, before, formatted, hexamined,
            hother, .inl (hentry.resolve_right ?_)⟩
          rintro ⟨_, -, hnone, -⟩
          cases hnone
      · rw [h.alike.locate] at hplace
        exact .inr ⟨later, List.mem_cons_of_mem _ hlater, hplace, hformatted⟩

/-- A file that holds no text keeps its bytes. -/
theorem entry?_of_error (h : TreatsAll settings options sources files failure? after)
    {bytes : Bytes} {e : Utf8Error} (hfile : files.entry? place = some (.file bytes))
    (hbytes : Files.decodeText? bytes = .error e) :
    after.entry? place = some (.file bytes) := by
  have hstep : ∀ {files middle : Files} {source : Path} {failure? : Option Failure},
      Treats settings options source files failure? middle →
        files.entry? place = some (.file bytes) → middle.entry? place = some (.file bytes) := by
    intro files middle source failure? h hfile
    obtain hkept | ⟨bytes', before, _, -, hfile', hdecoded, -⟩ := h.entry_cases place
    · rw [hkept, hfile]
    · rw [hfile] at hfile'
      obtain rfl : bytes = bytes' := by simpa using hfile'
      rw [hbytes] at hdecoded
      cases hdecoded
  induction h with
  | nil files => exact hfile
  | stop h => exact hstep h hfile
  | cons h _ ih => exact ih (hstep h hfile)

end TreatsAll

/-- A run with a plan treats its sources up to one that ends it, and the failure is the result. -/
theorem conclusion_treats {depths : Depths} {common : CommonOptions} {plan : Plan}
    (hplan : plan? depths files common options = .ok plan) :
    ∃ failure?, TreatsAll plan.settings options plan.sources files failure?
        (conclusion depths files common options).files ∧
      ∀ failure ∈ failure?, (conclusion depths files common options).result = .error failure := by
  unfold conclusion
  rw [hplan]
  dsimp only
  by_cases hnone : plan.sources = []
  · rw [if_pos hnone, hnone]
    exact ⟨none, .nil files, nofun⟩
  · rw [if_neg hnone]
    have hvisit := Progress.treats_visit plan.settings options { files } plan.sources
    generalize ({ files } : Progress).visit plan.settings options plan.sources = visited
      at hvisit ⊢
    obtain ⟨_ | failure, reached⟩ := visited
    · exact ⟨none, hvisit, nofun⟩
    · refine ⟨some failure, hvisit, ?_⟩
      rintro _ ⟨⟩
      rfl

/-- A run that is asked to format, without a program for trees, does nothing to the files but treat
its sources one after the other, up to one that ends it. So no other file changes, no file at all
changes if an option keeps the run from writing, a file that is no text keeps its bytes, and every
file that changes gets the bytes of a text that a source was formatted to and did not have, unless
the text has surrogates: then the file gets no bytes, and the run ends with this failure. -/
theorem run_writes (around : Surroundings) {files : Files} {words : List Text}
    {common : CommonOptions} {options : FormatOptions}
    (hrequest : Request.ofWords? words = .ok (some { common, job := .format options }))
    (hprogram : ∀ workspace, workspaceOf? around.depths files common = .ok workspace →
      workspace.parser.command = []) :
    let ended := run around files words
    let after := ended.console.files
    (options.check ∨ options.diff ∨ options.toOutput → after = files) ∧
      match plan? around.depths files common options with
      | .error _ => after = files
      | .ok plan =>
          (∃ failure?, TreatsAll plan.settings options plan.sources files failure? after ∧
            ∀ failure ∈ failure?, ended.outcome = outcomeOf around (.error failure)) ∧
          (∀ place, (∀ source ∈ plan.sources, files.locate source ≠ .ok place) →
            after.entry? place = files.entry? place) ∧
          (∀ place bytes e, files.entry? place = some (.file bytes) →
            Files.decodeText? bytes = .error e → after.entry? place = some (.file bytes)) ∧
          ∀ place, after.entry? place ≠ files.entry? place →
            ∃ source ∈ plan.sources, files.locate source = .ok place ∧
              ∃ middle before formatted,
                plan.settings.examine? middle source = .ok (.formatted before formatted) ∧
                formatted.text ≠ before ∧
                ((∃ bytes, formatted.text.toUtf8? = .ok bytes ∧
                    after.entry? place = some (.file bytes)) ∨
                  ∃ e, formatted.text.toUtf8? = .error e ∧
                    ended.outcome = .failed (.surrogates e) ∧
                    after.entry? place = some (.file [])) := by
  -- Everything follows from what becomes of the files along the sources that are treated.
  obtain ⟨houtcome, hfiles, -⟩ := run_conclusion around hrequest hprogram
  dsimp only
  rw [houtcome, hfiles]
  cases hplan : plan? around.depths files common options with
  | error failure =>
      have hsame : (conclusion around.depths files common options).files = files := by
        unfold conclusion
        rw [hplan]
      exact ⟨fun _ => hsame, hsame⟩
  | ok plan =>
      obtain ⟨failure?, htreated, hresult⟩ := conclusion_treats hplan
      refine ⟨fun hshows => htreated.eq_of_shows (by simpa [FormatOptions.shows, or_assoc]),
        ⟨failure?, htreated, fun failure h => by rw [hresult failure h]⟩, fun place hplace => ?_,
        fun place bytes e => htreated.entry?_of_error, fun place hchanged => ?_⟩
      · obtain hkept | ⟨source, hsource, hlocated, -⟩ := htreated.entry_cases place
        · exact hkept
        · exact absurd hlocated (hplace source hsource)
      · obtain hkept | ⟨source, hsource, hlocated, middle, before, formatted, hexamined, hother,
          hentry⟩ := htreated.entry_cases place
        · exact absurd hkept hchanged
        · refine ⟨source, hsource, hlocated, middle, before, formatted, hexamined, hother,
            hentry.imp_right ?_⟩
          rintro ⟨e, hbytes, hfailure, hempty⟩
          exact ⟨e, hbytes, by rw [hresult _ hfailure]; rfl, hempty⟩

/-- A file beside the source that a run formats. -/
theorem run_writes_beside :
    let files : Files :=
      { root := "/w", scratch := "/t"
        entries :=
          [({ anchor := .known "/w", names := ["a.v"] }, .file (Text.utf8 "wire a;\n".toList)),
            ({ anchor := .known "/w", names := ["b.v"] }, .file (Text.utf8 "wire b;\n".toList))] }
    let options : FormatOptions := { paths := ["a.v"] }
    Request.ofWords? ["format", "a.v"] = .ok (some { common := {}, job := .format options }) ∧
      (∀ workspace, workspaceOf? {} files {} = .ok workspace → workspace.parser.command = []) ∧
      Files.entry? (run {} files ["format", "a.v"]).console.files
          { anchor := .known "/w", names := ["b.v"] } =
        some (.file (Text.utf8 "wire b;\n".toList)) := by
  intro files options
  have hrequest : Request.ofWords? ["format", "a.v"] =
      .ok (some { common := {}, job := .format options }) := rfl
  have hprogram : ∀ workspace, workspaceOf? {} files {} = .ok workspace →
      workspace.parser.command = [] := by
    intro workspace h
    cases h
    rfl
  refine ⟨hrequest, hprogram, ?_⟩
  have hplan : plan? {} files {} options =
      .ok { settings := { columns := Columns.standard, treeSuffix := ".ast.json" },
            sources := [{ names := ["a.v"] }] } := rfl
  have hwrites := (run_writes {} hrequest hprogram).2
  rw [hplan] at hwrites
  refine (hwrites.2.1 _ fun source hsource hplace => ?_).trans rfl
  obtain rfl := List.mem_singleton.1 hsource
  cases hplace

/-- A source whose tree brings a surrogate is left without bytes, at the end of a run that fails. -/
theorem run_writes_surrogate :
    let files : Files :=
      { root := "/w", scratch := "/t"
        entries :=
          [({ anchor := .known "/w", names := ["a.v"] }, .file (Text.utf8 "wire a;\n".toList)),
            ({ anchor := .known "/w", names := ["a.v.ast.json"] }, .file (Text.utf8
              ("\x7b\"name\":\"source_text\",\"children\":[\x7b\"name\":\"IDENTIFIER\"," ++
                "\"value\":\"\\ud800\"\x7d]\x7d").toList))] }
    let ended := run {} files ["format", "a.v"]
    Files.entry? ended.console.files { anchor := .known "/w", names := ["a.v"] } =
        some (.file []) ∧
      (match ended.outcome with
        | .failed failure => some failure.kind
        | .exited _ => none) = some ("UnicodeEncodeError" : Text) := by
  decide +kernel

end Command
end VerilogLayout

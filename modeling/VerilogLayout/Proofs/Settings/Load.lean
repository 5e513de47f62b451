import VerilogLayout.Proofs.Settings.CommandLine
import VerilogLayout.Proofs.Settings.Meaning
import VerilogLayout.Workspace.Config

/-!
# Errors of a configuration file

A file that cannot be used has a report that says what to mend, with the exception of some faults of
the section of the program, which `Slips` lists, and of limits that reading the file or showing a
value passes. `Workspace.load_settled_iff` says that loading gives a workspace or a report unless
the file that is read has such a fault, `Escapes`, whatever it holds. Loading comes to the section
only with columns, so a file with two faults has a report if its columns are refused and the value
at fault can be shown.
-/

namespace VerilogLayout

namespace ConfigError

/-- Every report of an error is about the settings. -/
theorem topic_of_report? {e : ConfigError} {report : Report} (h : e.report? = some report) :
    report.topic = .settings := by
  cases e with
  | notFound | unreadable | noTable | noSection | commandForm =>
      obtain rfl := Option.some.inj h
      rfl
  | setting e =>
      cases e with
      | truthValue | unreadable | noInteger | negative =>
          obtain rfl := Option.some.inj h
          rfl
      | unknownPreset | limit => cases h
  | parserForm | commandText | timeoutText | timeoutForm | timeoutSize | limit => cases h

end ConfigError

namespace Workspace

/-- There is a workspace, or an error with a report about the settings. -/
def Settled (result : Except ConfigError Workspace) : Prop :=
  (∃ workspace, result = .ok workspace) ∨
    ∃ e report, result = .error e ∧ e.report? = some report ∧ report.topic = .settings

/-- There is an error that no report tells. -/
def Unreported {α : Type} (result : Except ConfigError α) : Prop :=
  ∃ e, result = .error e ∧ e.report? = none

/-- The file that is read. -/
def chosen? (files : Files) (root : Path) : Option Path → Option Path
  | some path => if files.isFile path then some path else none
  | none => findFile? files (files.resolve root)

/-- The words of a command can be had: a text is a command line, and a value of another kind is a
list whose items can be written or says nothing. -/
def IsCommand (room : Nat) : Value → Prop
  | .text line => Text.IsCommandLine line
  | .list items => ∀ item ∈ items, item.limit? room = none
  | value => value.isEmpty

/-- A time limit is a number, as itself or as its text, and no integer past all floating-point
numbers. -/
def IsTime : Value → Prop
  | .bool _ | .float _ => True
  | .int n => (Number.ofInt? n).isSome
  | .text s => (Number.readFloat? s).isSome
  | .null | .moment _ | .list _ | .table _ => False

/-- The section of the program has a fault that no report tells: it is no table, the command is a
text that is no command line or a list with an item that cannot be written, the time limit is none,
or the suffix cannot be written. -/
inductive Slips (room : Nat) : Value → Prop
  | form {value : Value} (htable : ∀ entries, value ≠ .table entries)
      (hempty : value.isEmpty = false) : Slips room value
  | command {entries : Table} {line : Text}
      (hcommand : entries.get? "command" = some (.text line))
      (hline : ¬ Text.IsCommandLine line) : Slips room (.table entries)
  | argument {entries : Table} {items : List Value}
      (hcommand : entries.get? "command" = some (.list items)) {item : Value} (hmem : item ∈ items)
      (hlimit : item.limit? room ≠ none) : Slips room (.table entries)
  | timeout {entries : Table} {value : Value}
      (hcommand : ∀ command ∈ entries.get? "command", IsCommand room command)
      (htimeout : entries.get? "timeout" = some value) (htime : ¬ IsTime value) :
      Slips room (.table entries)
  | suffix {entries : Table} {value : Value}
      (hcommand : ∀ command ∈ entries.get? "command", IsCommand room command)
      (htimeout : ∀ timeout ∈ entries.get? "timeout", IsTime timeout)
      (hsuffix : entries.get? "tree_suffix" = some value) (hempty : value.isEmpty = false)
      (hlimit : value.limit? room ≠ none) : Slips room (.table entries)

/-- The file has a fault that no report tells: reading it passes a limit, what is at fault in its
columns cannot be shown, or it has columns and its section of the program slips. -/
inductive Escapes (depths : Depths) (files : Files) (source : Path) : Prop
  | depth {passed : Limit} (h : readFile? depths files source = .error (.limit passed))
  | columns {data entries : Table} (hread : readFile? depths files source = .ok (.table data))
      (hentries : alignEntries? data = .ok entries) (h : Columns.Overflows depths.shown entries)
  | program {data entries : Table} (hread : readFile? depths files source = .ok (.table data))
      (hentries : alignEntries? data = .ok entries) (hgood : ¬ Columns.Refused entries)
      (h : Slips depths.shown ((Table.get? data "parser").getD .null))

/-- A section that is a text slips. -/
example : Slips 900 (.text "abc") :=
  .form nofun rfl

variable {room : Nat} {depths : Depths}

section
variable {α β : Type}

theorem not_unreported_ok (a : α) : ¬ Unreported (.ok a) := by
  rintro ⟨e, he, -⟩
  cases he

/-- An error is unreported if it has no report. -/
theorem unreported_error {e : ConfigError} :
    Unreported (.error e : Except ConfigError α) ↔ e.report? = none := by
  constructor
  · rintro ⟨other, hother, hnone⟩
    obtain rfl := Except.error.inj hother
    exact hnone
  · exact fun hnone => ⟨e, rfl, hnone⟩

/-- An error with a report is not unreported. -/
theorem not_unreported_error {e : ConfigError} {report : Report} (h : e.report? = some report) :
    ¬ Unreported (.error e : Except ConfigError α) := by
  rw [unreported_error, h]
  nofun

/-- Of two steps the second one is taken if the first one succeeds. -/
theorem unreported_bind {result : Except ConfigError α} {next : α → Except ConfigError β} :
    Unreported (result >>= next) ↔
      Unreported result ∨ ∃ a, result = .ok a ∧ Unreported (next a) := by
  cases result with
  | ok a =>
      rw [or_iff_right (not_unreported_ok a)]
      constructor
      · exact fun h => ⟨a, rfl, h⟩
      · rintro ⟨b, heq, h⟩
        obtain rfl := Except.ok.inj heq
        exact h
  | error e =>
      refine Iff.trans ?_ (or_iff_left (by rintro ⟨a, heq, -⟩; cases heq)).symm
      exact unreported_error.trans unreported_error.symm

end

/-! ## The section of the program -/

/-- An argument is had from a value that can be written, and no report tells of another one. -/
theorem readArgument?_cases (value : Value) :
    value.limit? room = none ∧ readArgument? room value = .ok value.plain ∨
      ∃ passed, value.limit? room = some passed ∧
        readArgument? room value = .error (.limit passed) := by
  rw [readArgument?, Value.plain?]
  cases value.limit? room with
  | none => exact .inl ⟨rfl, rfl⟩
  | some passed => exact .inr ⟨passed, rfl, rfl⟩

/-- A list is read item by item, and only an item that cannot be written stops this. -/
theorem readArguments?_cases (items : List Value) :
    (∀ item ∈ items, item.limit? room = none) ∧
        (∃ words, items.mapM (readArgument? room) = .ok words) ∨
      (∃ item ∈ items, item.limit? room ≠ none) ∧
        ∃ passed, items.mapM (readArgument? room) = .error (.limit passed) := by
  induction items with
  | nil => exact .inl ⟨List.forall_mem_nil _, [], rfl⟩
  | cons item items ih =>
      rw [List.mapM_cons]
      rcases @readArgument?_cases room item with
        ⟨hitem, hword⟩ | ⟨passed, hitem, hword⟩
      · rw [hword]
        rcases ih with ⟨hitems, words, hwords⟩ | ⟨⟨bad, hmem, hbad⟩, passed, hwords⟩
        · rw [hwords]
          exact .inl ⟨List.forall_mem_cons.2 ⟨hitem, hitems⟩, item.plain :: words, rfl⟩
        · rw [hwords]
          exact .inr ⟨⟨bad, List.mem_cons_of_mem _ hmem, hbad⟩, passed, rfl⟩
      · rw [hword]
        exact .inr ⟨⟨item, List.mem_cons_self, by rw [hitem]; nofun⟩, passed, rfl⟩

/-- The words of a command are had exactly if it is one. -/
theorem exists_readCommand? {value : Value} :
    (∃ words, readCommand? room value = .ok words) ↔ IsCommand room value := by
  cases value with
  | text line =>
      refine Iff.trans ?_ Text.exists_arguments?
      rw [readCommand?]
      cases Text.arguments? line with
      | error fault => exact iff_of_false (by rintro ⟨_, ⟨⟩⟩) (by rintro ⟨_, ⟨⟩⟩)
      | ok words => exact iff_of_true ⟨words, rfl⟩ ⟨words, rfl⟩
  | list items =>
      rw [readCommand?]
      rcases @readArguments?_cases room items with
        ⟨hitems, hwords⟩ | ⟨⟨item, hmem, hitem⟩, passed, hwords⟩
      · exact iff_of_true hwords hitems
      · rw [hwords]
        exact iff_of_false (by rintro ⟨_, ⟨⟩⟩) fun hitems => hitem (hitems item hmem)
  | null | bool _ | int _ | float _ | moment _ | table _ =>
      simp only [readCommand?, IsCommand]
      split
      · exact iff_of_true ⟨[], rfl⟩ (by assumption)
      · exact iff_of_false (by rintro ⟨_, ⟨⟩⟩) (by assumption)

/-- No report tells of a text that is no command line and of an item that cannot be written. -/
theorem unreported_readCommand? {value : Value} :
    Unreported (readCommand? room value) ↔
      (∃ line, value = .text line ∧ ¬ Text.IsCommandLine line) ∨
        ∃ items, value = .list items ∧ ∃ item ∈ items, item.limit? room ≠ none := by
  -- A text can fail in its quoting and a list in its items; no other value gets that far.
  cases value with
  | text line =>
      have hlist : ¬ ∃ items, Value.text line = .list items ∧ ∃ item ∈ items,
          item.limit? room ≠ none := by rintro ⟨_, heq, -⟩; cases heq
      rw [or_iff_left hlist]
      have hiff := @exists_readCommand? room (.text line)
      cases hread : readCommand? room (.text line) with
      | ok words =>
          rw [hread] at hiff
          refine iff_of_false (not_unreported_ok words) ?_
          rintro ⟨_, heq, hline⟩
          exact hline (Value.text.inj heq ▸ hiff.1 ⟨words, rfl⟩)
      | error e =>
          rw [hread] at hiff
          refine iff_of_true (unreported_error.2 ?_) ⟨line, rfl, fun hline => ?_⟩
          · rw [readCommand?] at hread
            cases harguments : Text.arguments? line with
            | ok words => rw [harguments] at hread; cases hread
            | error fault =>
                rw [harguments] at hread
                obtain rfl := Except.error.inj hread
                rfl
          · obtain ⟨words, hwords⟩ := hiff.2 hline
            cases hwords
  | list items =>
      have htext : ¬ ∃ line, Value.list items = .text line ∧ ¬ Text.IsCommandLine line := by
        rintro ⟨_, heq, -⟩; cases heq
      rw [or_iff_right htext, readCommand?]
      rcases @readArguments?_cases room items with
        ⟨hitems, words, hwords⟩ | ⟨hbad, passed, hwords⟩
      · rw [hwords]
        refine iff_of_false (not_unreported_ok words) ?_
        rintro ⟨_, heq, item, hmem, hitem⟩
        exact hitem (hitems item (Value.list.inj heq ▸ hmem))
      · rw [hwords]
        exact iff_of_true (unreported_error.2 rfl) ⟨items, rfl, hbad⟩
  | null | bool _ | int _ | float _ | moment _ | table _ =>
      refine iff_of_false ?_ (by rintro (⟨_, heq, -⟩ | ⟨_, heq, -⟩) <;> cases heq)
      simp only [readCommand?]
      split
      · exact not_unreported_ok _
      · exact not_unreported_error rfl

/-- A time limit is had exactly if it is one, and no report tells of another one. -/
theorem readTimeout?_cases (value : Value) :
    IsTime value ∧ (∃ x, readTimeout? value = .ok x) ∨
      ¬ IsTime value ∧ ∃ e, readTimeout? value = .error e ∧ e.report? = none := by
  cases value with
  | bool _ | float _ => exact .inl ⟨trivial, _, rfl⟩
  | int n =>
      rw [IsTime, readTimeout?]
      cases Number.ofInt? n with
      | none => exact .inr ⟨nofun, _, rfl, rfl⟩
      | some x => exact .inl ⟨rfl, x, rfl⟩
  | text s =>
      rw [IsTime, readTimeout?]
      cases Number.readFloat? s with
      | none => exact .inr ⟨nofun, _, rfl, rfl⟩
      | some x => exact .inl ⟨rfl, x, rfl⟩
  | null | moment _ | list _ | table _ => exact .inr ⟨not_false, _, rfl, rfl⟩

/-- A time limit is read if and only if a value that is given is one. -/
theorem exists_readTimeLimit? {value? : Option Value} :
    (∃ x, readTimeLimit? value? = .ok x) ↔ ∀ value ∈ value?, IsTime value := by
  cases value? with
  | none => exact iff_of_true ⟨_, rfl⟩ nofun
  | some value =>
      rw [readTimeLimit?]
      rcases readTimeout?_cases value with ⟨htime, hread⟩ | ⟨htime, e, hread, -⟩
      · exact iff_of_true hread fun _ hother => Option.some.inj hother ▸ htime
      · rw [hread]
        exact iff_of_false nofun fun h => htime (h value rfl)

/-- A time limit that is none is not reported. -/
theorem unreported_readTimeLimit? {value? : Option Value} :
    Unreported (readTimeLimit? value?) ↔ ∃ value, value? = some value ∧ ¬ IsTime value := by
  cases value? with
  | none => exact iff_of_false (not_unreported_ok _) nofun
  | some value =>
      rw [readTimeLimit?]
      rcases readTimeout?_cases value with ⟨htime, x, hread⟩ | ⟨htime, hread⟩
      · rw [hread]
        refine iff_of_false (not_unreported_ok x) ?_
        rintro ⟨_, heq, hother⟩
        exact hother (Option.some.inj heq ▸ htime)
      · exact iff_of_true hread ⟨value, rfl, htime⟩

/-- A suffix is not reported if showing it runs into a limit. -/
theorem unreported_readSuffix? {value : Value} :
    Unreported (readSuffix? room value) ↔ value.isEmpty = false ∧ value.limit? room ≠ none := by
  rw [readSuffix?]
  cases value.isEmpty with
  | true => exact iff_of_false (not_unreported_ok _) nofun
  | false =>
      rw [if_neg Bool.false_ne_true, and_iff_right rfl]
      rcases @readArgument?_cases room value with ⟨hlimit, hread⟩ | ⟨passed, hlimit, hread⟩
      · rw [hread, hlimit]
        exact iff_of_false (not_unreported_ok _) fun h => h rfl
      · rw [hread, hlimit]
        exact iff_of_true (unreported_error.2 rfl) nofun

/-- A section without a command is read as one with an empty value. -/
theorem isCommand_getD {command : Option Value} :
    IsCommand room (command.getD .null) ↔ ∀ value ∈ command, IsCommand room value := by
  cases command with
  | none => simp [IsCommand, Value.isEmpty]
  | some value => simp

/-- The parts of a section are read one after the other, and the first fault counts. -/
theorem readParserSection?_unreported_iff {entries : Table} :
    Unreported (readParserSection? room entries) ↔
      Unreported (readCommand? room ((entries.get? "command").getD .null)) ∨
        (∀ command ∈ entries.get? "command", IsCommand room command) ∧
          (Unreported (readTimeLimit? (entries.get? "timeout")) ∨
            (∀ timeout ∈ entries.get? "timeout", IsTime timeout) ∧
              Unreported (readSuffix? room ((entries.get? "tree_suffix").getD .null))) := by
  rw [readParserSection?, unreported_bind, ← isCommand_getD, ← exists_readCommand?,
    ← exists_readTimeLimit?]
  refine or_congr Iff.rfl ?_
  rw [← exists_and_right]
  refine exists_congr fun words => and_congr_right fun _ => ?_
  rw [unreported_bind, ← exists_and_right]
  refine or_congr Iff.rfl (exists_congr fun timeout => and_congr_right fun _ => ?_)
  rw [unreported_bind, or_iff_left]
  rintro ⟨suffix, -, h⟩
  exact not_unreported_ok _ h

/-- Exactly the sections that slip have a fault without a report. -/
theorem readParserSection?_unreported {entries : Table} :
    Unreported (readParserSection? room entries) ↔ Slips room (.table entries) := by
  rw [readParserSection?_unreported_iff, unreported_readCommand?, unreported_readTimeLimit?,
    unreported_readSuffix?]
  have hget : ∀ {value? : Option Value} {value : Value}, value?.getD .null = value →
      value ≠ .null → value? = some value := by
    rintro (_ | other) value rfl hne
    · exact absurd rfl hne
    · rfl
  constructor
  · rintro ((⟨line, hline, hbad⟩ | ⟨items, hitems, item, hmem, hlimit⟩) | ⟨hcommand, htail⟩)
    · exact .command (hget hline nofun) hbad
    · exact .argument (hget hitems nofun) hmem hlimit
    · rcases htail with ⟨value, hvalue, htime⟩ | ⟨htime, hempty, hlimit⟩
      · exact .timeout hcommand hvalue htime
      · refine .suffix hcommand htime (hget rfl ?_) hempty hlimit
        intro hnull
        rw [hnull] at hempty
        cases hempty
  · intro h
    cases h with
    | form htable _ => exact absurd rfl (htable entries)
    | @command _ line hcommand hline => exact .inl (.inl ⟨line, by rw [hcommand]; rfl, hline⟩)
    | @argument _ items hcommand item hmem hlimit =>
        exact .inl (.inr ⟨items, by rw [hcommand]; rfl, item, hmem, hlimit⟩)
    | @timeout _ value hcommand htimeout htime =>
        exact .inr ⟨hcommand, .inl ⟨value, htimeout, htime⟩⟩
    | @suffix _ value hcommand htimeout hsuffix hempty hlimit =>
        rw [hsuffix]
        exact .inr ⟨hcommand, .inr ⟨htimeout, hempty, hlimit⟩⟩

/-- The settings of the parser go unreported where their table slips. -/
theorem readParser?_unreported {data : Table} :
    Unreported (readParser? room data) ↔ Slips room ((data.get? "parser").getD .null) := by
  unfold readParser?
  cases (data.get? "parser").getD .null with
  | table entries => exact readParserSection?_unreported
  | null | bool _ | int _ | float _ | text _ | moment _ | list _ =>
      dsimp only
      constructor
      · rintro ⟨e, he, -⟩
        refine .form nofun (Bool.eq_false_iff.2 fun hempty => ?_)
        rw [if_pos hempty] at he
        cases he
      · rintro ⟨-, hempty⟩
        rw [hempty]
        exact ⟨_, rfl, rfl⟩

/-! ## The file -/

/-- What is loaded is settled unless it is an error that no report tells. -/
theorem settled_iff {result : Except ConfigError Workspace} :
    Settled result ↔ ¬ Unreported result := by
  cases result with
  | ok workspace => exact iff_of_true (.inl ⟨workspace, rfl⟩) (not_unreported_ok workspace)
  | error e =>
      rw [unreported_error]
      constructor
      · rintro (⟨workspace, h⟩ | ⟨other, report, hother, hreport, -⟩)
        · cases h
        · obtain rfl := Except.error.inj hother
          exact Option.ne_none_iff_exists'.2 ⟨report, hreport⟩
      · intro hnone
        obtain ⟨report, hreport⟩ := Option.ne_none_iff_exists'.1 hnone
        exact .inr ⟨e, report, rfl, hreport, ConfigError.topic_of_report? hreport⟩

/-- The columns can only be no table of options. -/
theorem eq_noSection_of_alignEntries? {data : Table} {e : ConfigError}
    (h : alignEntries? data = .error e) : e = .noSection := by
  unfold alignEntries? at h
  split at h
  · cases h
  · cases h
  · exact (Except.error.inj h).symm

/-- Only a limit keeps a file from being read without a report. -/
theorem readFile?_unreported {files : Files} {path : Path} :
    Unreported (readFile? depths files path) ↔
      ∃ passed, readFile? depths files path = .error (.limit passed) := by
  have hlimit : ∀ passed, (limitError path passed).report? = none →
      limitError path passed = .limit passed := by
    intro passed h
    unfold limitError at h ⊢
    split at h
    · rw [if_pos ‹_›]
    · cases h
  have hstops : ∀ {result : Except ConfigError Value} {passed : Limit} {e : ConfigError},
      result = .error (limitError path passed) → result = .error e → e.report? = none →
        ∃ passed, e = .limit passed := by
    rintro result passed e h he hnone
    obtain rfl := Except.error.inj (h.symm.trans he)
    exact ⟨passed, hlimit passed hnone⟩
  constructor
  · rintro ⟨e, he, hnone⟩
    suffices hkind : ∃ passed, e = .limit passed by
      obtain ⟨passed, rfl⟩ := hkind
      exact ⟨passed, he⟩
    -- Everything but the two readers reports its error, and a reader keeps quiet only about a
    -- limit.
    unfold readFile? readText? at he
    split at he
    · obtain rfl := Except.error.inj he
      cases hnone
    · split at he
      · obtain rfl := Except.error.inj he
        cases hnone
      · split at he
        · split at he
          · cases he
          · obtain rfl := Except.error.inj he
            cases hnone
          · exact hstops rfl he hnone
        · dsimp only at he
          split at he
          · cases he
          · obtain rfl := Except.error.inj he
            cases hnone
          · exact hstops rfl he hnone
  · rintro ⟨passed, h⟩
    exact ⟨_, h, rfl⟩

/-- A table is read up to its section of the program if its columns can be had. -/
theorem ofTable_unreported {root source : Path} {data : Table} :
    Unreported (ofTable room root source data).1 ↔
      ∃ entries, alignEntries? data = .ok entries ∧ (Columns.Overflows room entries ∨
        ¬ Columns.Refused entries ∧ Slips room ((Table.get? data "parser").getD .null)) := by
  rw [← readParser?_unreported]
  unfold ofTable
  cases hentries : alignEntries? data with
  | error e =>
      rw [eq_noSection_of_alignEntries? hentries]
      exact iff_of_false (not_unreported_error rfl) nofun
  | ok entries =>
      have hexists : ∀ {p : Table → Prop}, (∃ other, Except.ok (ε := ConfigError) entries =
          .ok other ∧ p other) ↔ p entries := by
        intro p
        exact ⟨fun ⟨_, heq, h⟩ => Except.ok.inj heq ▸ h, fun h => ⟨entries, rfl, h⟩⟩
      rw [hexists]
      dsimp only
      rw [unreported_bind]
      -- The columns are read before the section of the parser, so an error there hides what the
      -- section would have done.
      cases hcolumns : Columns.ofMapping? room entries with
      | error fault =>
          have hreport := Columns.exists_report_iff hcolumns
          have hrefused : Columns.Refused entries := Columns.refused_of_ofMapping? hcolumns
          rw [or_iff_left (by rintro ⟨_, heq, -⟩; cases heq), or_iff_left fun h => h.1 hrefused]
          refine Iff.trans unreported_error ?_
          rw [← not_iff_not, ← hreport]
          exact Option.ne_none_iff_exists'
      | ok columns =>
          have hgood : ¬ Columns.Refused entries := by
            intro h
            obtain ⟨fault, hfault, -⟩ := @Columns.exists_error room entries h
            rw [hcolumns] at hfault
            cases hfault
          have hshown : ¬ Columns.Overflows room entries := fun h => hgood h.refused
          rw [or_iff_right hshown, and_iff_right hgood]
          refine Iff.trans (or_iff_right (not_unreported_ok columns)) ?_
          constructor
          · rintro ⟨_, -, h⟩
            refine (unreported_bind.1 h).resolve_right ?_
            rintro ⟨parser, -, hok⟩
            exact not_unreported_ok _ hok
          · exact fun h => ⟨columns, rfl, unreported_bind.2 (.inl h)⟩

/-- Exactly the files with a fault that escapes are loaded without a workspace or a report. -/
theorem ofFile_unreported {files : Files} {root source : Path} :
    Unreported (ofFile depths files root source).1 ↔ Escapes depths files source := by
  have hread := @readFile?_unreported depths files source
  unfold ofFile
  cases hfile : readFile? depths files source with
  | error e =>
      rw [hfile] at hread
      refine Iff.trans ?_ (hread.trans ?_)
      · exact unreported_error.trans unreported_error.symm
      · constructor
        · rintro ⟨passed, heq⟩
          exact .depth (hfile.trans heq)
        · intro h
          cases h with
          | depth h => exact ⟨_, hfile.symm.trans h⟩
          | columns h | program h => rw [hfile] at h; cases h
  | ok value =>
      cases value with
      | table data =>
          dsimp only
          rw [ofTable_unreported]
          constructor
          · rintro ⟨entries, hentries, h | ⟨hgood, h⟩⟩
            · exact .columns hfile hentries h
            · exact .program hfile hentries hgood h
          · intro h
            cases h with
            | depth h => rw [hfile] at h; cases h
            | @columns other entries h hentries hoverflows =>
                obtain rfl := Value.table.inj (Except.ok.inj (hfile.symm.trans h))
                exact ⟨entries, hentries, .inl hoverflows⟩
            | @program other entries h hentries hgood hslips =>
                obtain rfl := Value.table.inj (Except.ok.inj (hfile.symm.trans h))
                exact ⟨entries, hentries, .inr ⟨hgood, hslips⟩⟩
      | null | bool _ | int _ | float _ | text _ | moment _ | list _ =>
          refine iff_of_false (not_unreported_error rfl) fun h => ?_
          cases h with
          | depth h | columns h | program h => rw [hfile] at h; cases h

end Workspace

open Workspace

/-- Loading gives a workspace or a report, unless there is a file with a fault that escapes. -/
theorem Workspace.load_settled_iff (depths : Depths) (files : Files) (root : Path)
    (config : Option Path) :
    Settled (load depths files root config).1 ↔
      ¬ ∃ source, chosen? files root config = some source ∧ Escapes depths files source := by
  rw [settled_iff]
  refine not_congr ?_
  unfold load
  cases config with
  | some path =>
      dsimp only [chosen?]
      by_cases hfile : files.isFile path
      · rw [if_pos hfile, if_pos hfile, ofFile_unreported]
        simp
      · rw [if_neg hfile, if_neg hfile]
        exact iff_of_false (not_unreported_error rfl) nofun
  | none =>
      dsimp only [chosen?]
      cases findFile? files (files.resolve root) with
      | none => exact iff_of_false (not_unreported_ok _) nofun
      | some path =>
          dsimp only
          rw [ofFile_unreported]
          simp

end VerilogLayout

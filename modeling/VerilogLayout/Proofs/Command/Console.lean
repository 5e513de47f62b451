import Mathlib.Tactic.Common
import VerilogLayout.Command.Console
import VerilogLayout.Proofs.Files.Utf8

/-!
# Parts of a run on a console

`Cli.on` runs a part of a run on a console. What matters of it is how the part ends and what it
leaves: the files and what stands on the first stream, but not the complaints on the second. This is
`Ends`, and `Ends.bind_ok` and `Ends.bind_error` put parts together. Most parts only find something
out: such a part `Answers` with a result and leaves everything as it was.
-/

namespace VerilogLayout.Command

variable {α β : Type}

namespace Cli

/-- How a part ends on a console, and the console afterwards. -/
def on (part : Cli α) (terms : RunTerms) (console : Console) : Except Ending α × Console :=
  ((part.run terms).run).run console

/-- What follows a part runs on the console that the part leaves, unless it ends the run. -/
theorem on_bind (part : Cli α) (next : α → Cli β) (terms : RunTerms) (console : Console) :
    (part >>= next).on terms console =
      match part.on terms console with
      | (.ok a, console) => (next a).on terms console
      | (.error ending, console) => (.error ending, console) := by
  unfold on ExceptT.run StateT.run ReaderT.run
  simp only [bind, ReaderT.bind, ExceptT.bind, ExceptT.mk, StateT.bind]
  cases part terms console with
  | mk result final => cases result <;> rfl

/-- The handler of a part runs on the console that the part leaves, if it ends the run. -/
theorem on_tryCatch (part : Cli α) (handler : Ending → Cli α) (terms : RunTerms)
    (console : Console) :
    (tryCatch part handler).on terms console =
      match part.on terms console with
      | (.ok a, console) => (.ok a, console)
      | (.error ending, console) => (handler ending).on terms console := by
  unfold on ExceptT.run StateT.run ReaderT.run
  simp only [tryCatch, tryCatchThe, MonadExceptOf.tryCatch, ExceptT.tryCatch, ExceptT.mk, bind,
    StateT.bind]
  cases part terms console with
  | mk result final => cases result <;> rfl

end Cli

/-! ## Results -/

section
variable {ε δ : Type} {result : Except ε α}

/-- Two steps in a row succeed if the first one does and the second one does with its result. -/
theorem bind_eq_ok {next : α → Except ε β} {b : β} :
    (result >>= next) = .ok b ↔ ∃ a, result = .ok a ∧ next a = .ok b := by
  cases result <;> simp [bind, Except.bind]

theorem map_eq_ok {f : α → β} {b : β} :
    result.map f = .ok b ↔ ∃ a, result = .ok a ∧ f a = b := by
  cases result <;> simp [Except.map]

/-- A result whose error is changed succeeds if the result does. -/
theorem mapError_eq_ok {f : ε → δ} {a : α} : result.mapError f = .ok a ↔ result = .ok a := by
  cases result <;> simp [Except.mapError]

end

/-! ## What a part leaves -/

/-- The part ends with the result and leaves these files and this text on the first stream. -/
def Ends (part : Cli α) (terms : RunTerms) (console : Console) (result : Except Ending α)
    (files : Files) (out : Text) : Prop :=
  ∃ err, part.on terms console = (result, { files, out, err })

namespace Ends

variable {part : Cli α} {next : α → Cli β} {terms : RunTerms} {console : Console}
  {files after : Files} {out printed err : Text} {result : Except Ending β}

theorem pure (a : α) : Ends (pure a) terms console (.ok a) console.files console.out :=
  ⟨console.err, rfl⟩

/-- Setting the files leaves what has been printed. -/
theorem setFiles (after : Files) :
    Ends (Cli.setFiles after) terms console (.ok ()) after console.out :=
  ⟨console.err, rfl⟩

/-- A text without surrogates is printed. -/
theorem write {text : Text} (h : text.IsEncodable) :
    Ends (Cli.write text) terms console (.ok ()) console.files (console.out ++ text) := by
  obtain ⟨bytes, hbytes⟩ := Text.exists_toUtf8?_iff.2 h
  refine ⟨console.err, ?_⟩
  unfold Cli.write
  rw [hbytes]
  rfl

/-- A text with surrogates ends the run, and nothing of it is printed. -/
theorem write_surrogates {text : Text} {e : SurrogateError} (h : text.toUtf8? = .error e) :
    Ends (Cli.write text) terms console (.error (.failure (.surrogates e))) console.files
      console.out := by
  refine ⟨console.err, ?_⟩
  unfold Cli.write
  rw [h]
  rfl

/-- A line that can be encoded is printed. -/
theorem writeLine {line : Text} (h : line.IsEncodable) :
    Ends (Cli.writeLine line) terms console (.ok ()) console.files
      (console.out ++ (line ++ "\n")) :=
  write (Text.isEncodable_append.2 ⟨h, Text.isEncodable_map_char _⟩)

/-- Leaving the program changes nothing. -/
theorem exit (status : Nat) :
    Ends (Cli.exit status : Cli α) terms console (.error (.exit status)) console.files
      console.out :=
  ⟨console.err, rfl⟩

/-- What follows a part that has a result runs on what the part leaves. -/
theorem bind_ok {a : α} (h : Ends part terms console (.ok a) files out)
    (hnext : ∀ err, Ends (next a) terms { files, out, err } result after printed) :
    Ends (part >>= next) terms console result after printed := by
  obtain ⟨err, hpart⟩ := h
  obtain ⟨err', hnext⟩ := hnext err
  exact ⟨err', by rw [Cli.on_bind, hpart]; exact hnext⟩

/-- Nothing follows a part that ends the run. -/
theorem bind_error {ending : Ending} (h : Ends part terms console (.error ending) files out) :
    Ends (part >>= next) terms console (.error ending) files out := by
  obtain ⟨err, hpart⟩ := h
  exact ⟨err, by rw [Cli.on_bind, hpart]⟩

/-- A part that comes to its end needs no handler. -/
theorem tryCatch_ok {a : α} {handler : Ending → Cli α}
    (h : Ends part terms console (.ok a) files out) :
    Ends (tryCatch part handler) terms console (.ok a) files out := by
  obtain ⟨err, hpart⟩ := h
  exact ⟨err, by rw [Cli.on_tryCatch, hpart]⟩

/-- The handler runs on what the part leaves that ends the run. -/
theorem tryCatch_error {ending : Ending} {handler : Ending → Cli β} {part : Cli β}
    (h : Ends part terms console (.error ending) files out)
    (hhandler : ∀ err, Ends (handler ending) terms { files, out, err } result after printed) :
    Ends (tryCatch part handler) terms console result after printed := by
  obtain ⟨err, hpart⟩ := h
  obtain ⟨err', hhandler⟩ := hhandler err
  exact ⟨err', by rw [Cli.on_tryCatch, hpart]; exact hhandler⟩

end Ends

/-! ## Parts that find something out -/

/-- The part ends with the result and changes nothing but the complaints. -/
def Answers (part : Cli α) (terms : RunTerms) (console : Console) (result : Except Failure α) :
    Prop :=
  Ends part terms console (result.mapError Ending.failure) console.files console.out

namespace Answers

variable {part : Cli α} {next : α → Cli β} {terms : RunTerms} {console : Console}
  {result : Except Failure α} {more : α → Except Failure β}

theorem pure (a : α) : Answers (pure a) terms console (.ok a) :=
  Ends.pure a

theorem fail (failure : Failure) :
    Answers (Cli.fail failure : Cli α) terms console (.error failure) :=
  ⟨console.err, rfl⟩

theorem files : Answers Cli.files terms console (.ok console.files) :=
  ⟨console.err, rfl⟩

theorem read : Answers (read : Cli RunTerms) terms console (.ok terms) :=
  ⟨console.err, rfl⟩

theorem complain (text : Text) : Answers (Cli.complain text) terms console (.ok ()) :=
  ⟨_, rfl⟩

theorem tell (events : List Event) : Answers (Cli.tell events) terms console (.ok ()) :=
  ⟨_, rfl⟩

/-- A result is the answer, or its error is the failure. -/
theorem orFail {ε : Type} (failure : ε → Failure) (result : Except ε α) :
    Answers (Cli.orFail failure result) terms console (result.mapError failure) := by
  cases result with
  | ok a => exact pure a
  | error e => exact fail (failure e)

/-- What follows a part that has a result finds the same files. -/
theorem bind_ok {a : α} {result : Except Failure β} (h : Answers part terms console (.ok a))
    (hnext : ∀ err, Answers (next a) terms { console with err } result) :
    Answers (part >>= next) terms console result :=
  Ends.bind_ok h hnext

/-- What follows a part finds the same files, unless the part fails. -/
theorem bind (h : Answers part terms console result)
    (hnext : ∀ a err, Answers (next a) terms { console with err } (more a)) :
    Answers (part >>= next) terms console (result >>= more) := by
  cases result with
  | error failure => exact Ends.bind_error h
  | ok a => exact h.bind_ok (hnext a)

/-- Parts for the items of a list answer one after the other. -/
theorem mapM {part : α → Cli β} {result : α → Except Failure β}
    (h : ∀ a err, Answers (part a) terms { console with err } (result a)) (items : List α) :
    Answers (items.mapM part) terms console (items.mapM result) := by
  induction items generalizing console with
  | nil => exact pure []
  | cons a items ih =>
      rw [List.mapM_cons, List.mapM_cons]
      refine (h a console.err).bind fun b err => ?_
      exact (@ih { console with err } h).bind fun bs err => pure (b :: bs)

/-- Parts for the items of a list that have nothing to say answer one after the other. -/
theorem forM {part : α → Cli Unit}
    (h : ∀ a err, Answers (part a) terms { console with err } (.ok ())) (items : List α) :
    Answers (items.forM part) terms console (.ok ()) := by
  induction items generalizing console with
  | nil => exact pure ()
  | cons a items ih => exact (h a console.err).bind_ok fun err => @ih { console with err } h

end Answers
end VerilogLayout.Command

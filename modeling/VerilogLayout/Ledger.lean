import VerilogLayout.Tree.Node

/-!
# The comment ledger

A comment may hang on two neighbouring tokens and is still written once: a `Ledger` holds the
comments that have been written, and `Ledger.take` hands out each index at most once.
`Ledger.emitted` puts comments on lines of their own and `Ledger.inlined` behind the code of a
line. Read `mem_consumed_take` first: what a ledger has consumed is what has been passed to it.
-/

namespace VerilogLayout

/-- The comments that have been written, the latest first. -/
structure Ledger where
  written : List Comment := []
deriving DecidableEq, Repr, Inhabited

namespace Ledger

/-- The indexes of the comments that have been written, the latest first. -/
def consumed (ledger : Ledger) : List Int :=
  ledger.written.map Comment.index

/-- The comment with this index has been written. -/
def isConsumed (ledger : Ledger) (index : Int) : Bool :=
  ledger.consumed.contains index

/-- Marks a comment as written, and tells whether it was not before. -/
def see (ledger : Ledger) (comment : Comment) : Bool × Ledger :=
  if ledger.isConsumed comment.index then
    (false, ledger)
  else
    (true, ⟨comment :: ledger.written⟩)

/-- The comments that have not been written yet, in order; from now on they have been. -/
def take : List Comment → Ledger → List Comment × Ledger
  | [], ledger => ([], ledger)
  | comment :: rest, ledger =>
      match ledger.see comment with
      | (true, ledger) =>
          let (taken, ledger) := take rest ledger
          (comment :: taken, ledger)
      | (false, ledger) => take rest ledger

/-- Comments one to a line, each line with the indentation in front. -/
def emitted (indent : Text) (comments : List Comment) : Text :=
  comments.flatMap fun comment => indent ++ comment.text ++ "\n"

/-- Comments behind the code of a line. Where another one follows a line comment, it starts a new
line with the indentation. -/
def inlined (indent : Text) (comments : List Comment) : Text :=
  go [] comments
where
  /-- `front` is the text that has been written. -/
  go (front : Text) : List Comment → Text
    | [] => front
    | comment :: rest =>
        let gap := if front.getLast? = some (.char '\n') then indent else " "
        let text := front ++ gap ++ comment.text
        go (if comment.isLine && !rest.isEmpty then text ++ "\n" else text) rest

/-- Comments without those that have been written and those whose index came before. -/
def unwritten (ledger : Ledger) (comments : List Comment) : List Comment :=
  (ledger.take comments).1

/-- The indexes that have been consumed, in ascending order. -/
def sorted (ledger : Ledger) : List Int :=
  ledger.consumed.mergeSort (· ≤ ·)

@[simp]
theorem consumed_cons (comment : Comment) (written : List Comment) :
    (⟨comment :: written⟩ : Ledger).consumed = comment.index :: (⟨written⟩ : Ledger).consumed :=
  rfl

/-- A comment is consumed if its index is. -/
theorem isConsumed_iff {ledger : Ledger} {index : Int} :
    ledger.isConsumed index ↔ index ∈ ledger.consumed := by
  simp [isConsumed]

/-- A comment is handed out if the ledger has not seen it. -/
theorem take_cons (comment : Comment) (rest : List Comment) (ledger : Ledger) :
    take (comment :: rest) ledger =
      if (ledger.see comment).1 then
        (comment :: (take rest (ledger.see comment).2).1, (take rest (ledger.see comment).2).2)
      else
        take rest (ledger.see comment).2 := by
  rw [take]
  rcases ledger.see comment with ⟨_ | _, next⟩ <;> rfl

/-- A ledger has consumed what it had before and what was passed to it. -/
theorem mem_consumed_take (comments : List Comment) (ledger : Ledger) (index : Int) :
    index ∈ (take comments ledger).2.consumed ↔
      index ∈ ledger.consumed ∨ ∃ comment ∈ comments, comment.index = index := by
  induction comments generalizing ledger with
  | nil => simp [take]
  | cons comment rest ih =>
    unfold take see
    by_cases h : ledger.isConsumed comment.index
    -- The ledger knows the first comment and stays as it is.
    · simp only [h, if_true, ih, List.mem_cons, exists_eq_or_imp]
      have hmem := isConsumed_iff.1 h
      constructor
      · rintro (hold | hrest)
        · exact .inl hold
        · exact .inr (.inr hrest)
      · rintro (hold | rfl | hrest)
        · exact .inl hold
        · exact .inl hmem
        · exact .inr hrest
    -- The ledger gains the index of the first comment.
    · simp only [h, Bool.false_eq_true, if_false, ih, consumed_cons, List.mem_cons,
        exists_eq_or_imp]
      constructor
      · rintro ((rfl | hold) | hrest)
        · exact .inr (.inl rfl)
        · exact .inl hold
        · exact .inr (.inr hrest)
      · rintro (hold | rfl | hrest)
        · exact .inl (.inr hold)
        · exact .inl (.inl rfl)
        · exact .inr hrest

end Ledger
end VerilogLayout

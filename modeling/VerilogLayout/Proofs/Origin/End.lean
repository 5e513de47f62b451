import VerilogLayout.Proofs.Comments.Once
import VerilogLayout.Proofs.Origin.Tree

/-!
# What is cut off behind a tree

The end of a written tree loses blanks and, with them, every mark of the end of the file that stands
there. A token for the end of the file writes nothing, so such a mark is made of characters of
comments and of other tokens: `formatTree_cleaned` says what is cut off, that this is all it is
made of, and that the result is the whole text without the blanks at its end if and only if no mark
stands there.
-/

namespace VerilogLayout

namespace Text

/-- Blanks and marks of the end of the file, in any order. -/
inductive EndRun : Text → Prop where
  | nil : EndRun []
  | blank {c : CodePoint} {rest : Text} : isBlank c → EndRun rest → EndRun (c :: rest)
  | mark {rest : Text} : EndRun rest → EndRun (Lexeme.endOfFile ++ rest)

/-- A text that ends neither in a blank nor in a mark of the end of the file. -/
def IsCleaned (text : Text) : Prop :=
  Stops isBlank text.reverse ∧ ¬ endsWith text Lexeme.endOfFile

/-- A text with a line feed behind it, unless it is empty. -/
def ended (text : Text) : Text :=
  if text.isEmpty then [] else text ++ "\n"

theorem ended_inj {text other : Text} : ended text = ended other ↔ text = other := by
  refine ⟨fun h => ?_, congrArg ended⟩
  cases text <;> cases other <;> simp_all [ended]

namespace EndRun

variable {text other : Text}

theorem append (h : EndRun text) (hother : EndRun other) : EndRun (text ++ other) := by
  induction h with
  | nil => exact hother
  | blank hc _ ih => exact .blank hc ih
  | mark _ ih =>
      rw [List.append_assoc]
      exact .mark ih

theorem of_allBlank (h : AllBlank text) : EndRun text := by
  induction text with
  | nil => exact .nil
  | cons c rest ih =>
      obtain ⟨hc, hrest⟩ := List.forall_mem_cons.1 h
      exact .blank hc (ih hrest)

/-- The characters that are no blanks are those of the mark. -/
theorem mem_endOfFile (h : EndRun text) {c : CodePoint} (hc : c ∈ text) (hink : ¬ isBlank c) :
    c ∈ Lexeme.endOfFile := by
  induction h with
  | nil => cases hc
  | blank hblank _ ih =>
      rcases List.mem_cons.1 hc with rfl | hc
      · exact absurd hblank hink
      · exact ih hc
  | mark _ ih => exact (List.mem_append.1 hc).elim id ih

end EndRun
end Text

open Text

namespace Node

open Render

/-! ## Cutting marks off -/

/-- Without a mark nothing is cut off. -/
theorem dropEndMarks_eq_self (fuel : Nat) {text : Text}
    (h : ¬ endsWith text Lexeme.endOfFile) : dropEndMarks fuel text = text := by
  cases fuel with
  | zero => rfl
  | succ fuel => rw [dropEndMarks, if_neg h]

/-- With enough fuel all blanks and marks at the end are cut off. -/
theorem exists_endRun {fuel : Nat} {text : Text} (hfuel : text.length ≤ fuel)
    (h : Stops isBlank text.reverse) :
    ∃ tail, text = dropEndMarks fuel text ++ tail ∧ EndRun tail ∧
      IsCleaned (dropEndMarks fuel text) := by
  induction fuel generalizing text with
  | zero =>
      obtain rfl := List.length_eq_zero_iff.1 (Nat.le_zero.1 hfuel)
      exact ⟨[], rfl, .nil, h, by decide⟩
  | succ fuel ih =>
      unfold dropEndMarks
      split
      · next hend =>
          -- The mark goes with the blanks in front of it, and what is left is shorter.
          obtain ⟨front, rfl⟩ := List.isSuffixOf_iff_suffix.1 hend
          rw [List.length_append, Nat.add_sub_cancel, List.take_left]
          obtain ⟨blanks, hfront, hblank, hstops⟩ := exists_trimRight front
          have hlength : (trimRight front).length ≤ fuel := by
            have hparts := congrArg List.length hfront
            rw [List.length_append] at hfuel hparts
            have hmark : Lexeme.endOfFile.length = 5 := rfl
            omega
          obtain ⟨tail, htail, hrun, hcleaned⟩ := ih hlength hstops
          refine ⟨tail ++ blanks ++ Lexeme.endOfFile, ?_, ?_, hcleaned⟩
          · rw [← List.append_assoc, ← List.append_assoc, ← htail, ← hfront]
          · exact (hrun.append (.of_allBlank hblank)).append
              (List.append_nil Lexeme.endOfFile ▸ .mark .nil)
      · next hend => exact ⟨[], (List.append_nil text).symm, .nil, h, hend⟩

/-- Cleaning the end of a text cuts off all blanks and marks there, and puts one line feed back. -/
theorem exists_cleanEnd (whole : Text) :
    ∃ rest tail, whole = rest ++ tail ∧ cleanEnd whole = ended rest ∧ IsCleaned rest ∧
      EndRun tail := by
  obtain ⟨blanks, hwhole, hblank, hstops⟩ := exists_trimRight whole
  obtain ⟨tail, htail, hrun, hcleaned⟩ := exists_endRun (Nat.le_refl _) hstops
  refine ⟨_, tail ++ blanks, ?_, rfl, hcleaned, hrun.append (.of_allBlank hblank)⟩
  rw [← List.append_assoc, ← htail, ← hwhole]

/-- Cleaning cuts off the blanks alone if and only if no mark stands in front of them. -/
theorem cleanEnd_eq_iff (whole : Text) :
    cleanEnd whole = ended (trimRight whole) ↔
      ¬ endsWith (trimRight whole) Lexeme.endOfFile := by
  obtain ⟨-, -, -, hstops⟩ := exists_trimRight whole
  obtain ⟨-, -, -, -, hcleaned⟩ := exists_endRun (Nat.le_refl _) hstops
  rw [show cleanEnd whole =
    ended (dropEndMarks (trimRight whole).length (trimRight whole)) from rfl, ended_inj]
  exact ⟨fun heq => heq ▸ hcleaned, dropEndMarks_eq_self _⟩

/-- No character that a layout adds is one of the mark. -/
theorem not_isAdded_of_mem_endOfFile : ∀ c ∈ Lexeme.endOfFile, ¬ isAdded c := by
  decide

/-- A tree is written as the whole text of its renderers without the blanks and the marks at its
end. Marks are cut off that characters of comments and of tokens other than the end of the file
make up; where there is none, nothing but blanks is cut off. -/
theorem formatTree_cleaned (columns : Columns) {root : Node} {text : Text}
    (h : formatTree columns root = .ok text) :
    ∃ whole appended,
      formatWhole columns root {} = (.ok (whole, appended), finalLedger columns root) ∧
      (∃ rest tail, whole = rest ++ tail ∧ text = ended rest ∧ IsCleaned rest ∧ EndRun tail ∧
        ∀ c ∈ tail, isBlank c ∨ c ∈ root.stock) ∧
      (text = ended (trimRight whole) ↔ ¬ endsWith (trimRight whole) Lexeme.endOfFile) := by
  obtain ⟨⟨whole, appended⟩, hrun, rfl⟩ := run_of_formatTree h
  have hdrawn : Drawn root.stock whole := drawn_formatWhole columns root _ _ _ hrun
  obtain ⟨rest, tail, hwhole, hclean, hcleaned, htail⟩ := exists_cleanEnd whole
  refine ⟨whole, appended, hrun, ⟨rest, tail, hwhole, hclean, hcleaned, htail, fun c hc => ?_⟩,
    cleanEnd_eq_iff whole⟩
  by_cases hblank : isBlank c
  · exact .inl hblank
  · -- A mark is all that is cut off but blanks, and no layout adds a part of one.
    have hmem : c ∈ ink whole := by
      rw [hwhole]
      exact List.mem_filter.2 ⟨List.mem_append_right _ hc, by simpa using hblank⟩
    exact .inr ((hdrawn c hmem).resolve_left
      (not_isAdded_of_mem_endOfFile c (htail.mem_endOfFile hc hblank)))

/-- A name with a comment that ends like a file. -/
def markedName : Node where
  name := "source_text"
  children := [
    { name := "IDENTIFIER", value := some ("a" : Text)
      trailing := [⟨("// <EOF>" : Text), .line, 1⟩] },
    { name := "EOF", value := some ("<EOF>" : Text) }]

/-- The comment loses its last characters. -/
theorem formatTree_markedName :
    formatTree Columns.standard markedName = .ok ("a //\n" : Text) ∧
      ∃ whole appended, formatWhole Columns.standard markedName {} =
          (.ok (whole, appended), finalLedger Columns.standard markedName) ∧
        (∃ rest tail, whole = rest ++ tail ∧ ("a //\n" : Text) = ended rest ∧ IsCleaned rest ∧
          EndRun tail ∧ ∀ c ∈ tail, isBlank c ∨ c ∈ markedName.stock) ∧
        (("a //\n" : Text) = ended (trimRight whole) ↔
          ¬ endsWith (trimRight whole) Lexeme.endOfFile) := by
  have hformat : formatTree Columns.standard markedName = .ok ("a //\n" : Text) := by decide
  exact ⟨hformat, formatTree_cleaned Columns.standard hformat⟩

end Node
end VerilogLayout

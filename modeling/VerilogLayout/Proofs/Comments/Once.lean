import VerilogLayout.Proofs.Comments.Tree

/-!
# Every comment once

A tree is written with a fresh ledger, which writes every comment of the tree once,
`accounted_of_formatTree`. The marks of the end of the file are cut off behind that, and comments
stand in the text that is left if no mark can reach into them, `preserved_of_clearOf`.
-/

namespace VerilogLayout

namespace Ledger

/-- What is unwritten is what a ledger would still gain. -/
theorem mem_consumed_take_unwritten (ledger : Ledger) (comments : List Comment) (index : Int) :
    index ∈ (take (ledger.unwritten comments) ledger).2.consumed ↔
      index ∈ ledger.consumed ∨ ∃ comment ∈ comments, comment.index = index := by
  rw [mem_consumed_take, ← mem_consumed_take comments, consumed, consumed, written_take]
  simp [unwritten, or_comm]

end Ledger

namespace Node

open Render

/-- The ledger behind a tree that has been written with a fresh one. -/
def finalLedger (columns : Columns) (root : Node) : Ledger :=
  ((formatWhole columns root).run {}).2

/-- `Accounted columns root` says that writing the tree has written each index once, and that it has
written the indexes of all comments in the tree and no others. -/
structure Accounted (columns : Columns) (root : Node) : Prop where
  distinct : (finalLedger columns root).consumed.Nodup
  complete : ∀ index, index ∈ (finalLedger columns root).consumed ↔
    ∃ comment ∈ root.comments, comment.index = index

/-- The comments that have been written stand in a text one behind the other. -/
def Preserved (columns : Columns) (root : Node) (text : Text) : Prop :=
  Carries (finalLedger columns root).written.reverse text

end Node

namespace Render

open Node

variable {S : Comment → Prop}

/-- A tree carries its comments, with those that no renderer has written behind it. -/
theorem keeps_formatWhole (hS : ∀ c, S c → Text.IsTrimmed c.text) (columns : Columns)
    {root : Node} (h : Within S root) :
    Keeps S (formatWhole columns root) fun taken result => Carries taken result.1 :=
  Standing.carried.keeps_formatWhole columns h (writes_format hS columns true h 0 (by simp))

/-- What is left over is consumed in the end. -/
theorem consumed_formatWhole {columns : Columns} {root : Node} {ledger final : Ledger}
    {result : Text × Nat} (hrun : formatWhole columns root ledger = (.ok result, final)) :
    ∀ comment ∈ root.comments, comment.index ∈ final.consumed := by
  intro comment hmem
  unfold formatWhole at hrun
  obtain ⟨text, middle, -, hrun⟩ := exists_of_bind hrun
  have hgain := Ledger.mem_consumed_take_unwritten middle root.comments comment.index
  suffices hfinal : final = (Ledger.take (middle.unwritten root.comments) middle).2 by
    rw [hfinal, hgain]
    exact .inr ⟨comment, hmem, rfl⟩
  replace hrun :
      (if (middle.unwritten root.comments).isEmpty then pure (text, 0)
      else do
        let below ← emit (middle.unwritten root.comments) []
        pure ((if text.isEmpty || endsLine text then text else text ++ "\n") ++ below,
          (middle.unwritten root.comments).length) : Render (Text × Nat)) middle =
      (.ok result, final) := hrun
  split at hrun
  · next hempty =>
      rw [List.isEmpty_iff.1 hempty]
      exact (Prod.mk.inj hrun).2.symm
  · exact (Prod.mk.inj hrun).2.symm

end Render

namespace Node

open Render

/-! ## The marks of the end of the file -/

theorem carries_trimRight {comments : List Comment} {text : Text}
    (htrimmed : ∀ c ∈ comments, Text.IsTrimmed c.text) (h : Carries comments text) :
    Carries comments (Text.trimRight text) :=
  h.dropRightWhile (fun _ hc => hc) htrimmed

/-- Cutting a mark off loses no comment that the mark cannot reach into. -/
theorem carries_dropEndMarks {comments : List Comment}
    (htrimmed : ∀ c ∈ comments, Text.IsTrimmed c.text)
    (hclear : ∀ c ∈ comments, Text.ClearOf Lexeme.endOfFile c.text) (fuel : Nat) {text : Text}
    (h : Carries comments text) : Carries comments (dropEndMarks fuel text) := by
  induction fuel generalizing text with
  | zero => exact h
  | succ fuel ih =>
      unfold dropEndMarks
      split
      · next hend =>
          obtain ⟨front, rfl⟩ := List.isSuffixOf_iff_suffix.1 hend
          rw [List.length_append, Nat.add_sub_cancel, List.take_left]
          exact ih (carries_trimRight htrimmed (h.of_append hclear))
      · exact h

/-- Cleaning the end loses no comment that is trimmed and free of the end mark. -/
theorem carries_cleanEnd {comments : List Comment}
    (htrimmed : ∀ c ∈ comments, Text.IsTrimmed c.text)
    (hclear : ∀ c ∈ comments, Text.ClearOf Lexeme.endOfFile c.text) {text : Text}
    (h : Carries comments text) : Carries comments (cleanEnd text) := by
  have hrest := carries_dropEndMarks htrimmed hclear (Text.trimRight text).length
    (carries_trimRight htrimmed h)
  unfold cleanEnd
  dsimp only
  split
  · next hempty => rwa [List.isEmpty_iff.1 hempty] at hrest
  · exact hrest.before _

/-- A tree is written by one run over it. -/
theorem run_of_formatTree {columns : Columns} {root : Node} {text : Text}
    (h : formatTree columns root = .ok text) :
    ∃ whole, formatWhole columns root {} = (.ok whole, finalLedger columns root) ∧
      text = cleanEnd whole.1 := by
  unfold formatTree formatTreeCounted at h
  rcases hrun : formatWhole columns root {} with ⟨(e | whole), final⟩
  · have herror : ((formatWhole columns root).run {}).1 = .error e := congrArg Prod.fst hrun
    rw [herror] at h
    simp [Except.map] at h
  · have hok : ((formatWhole columns root).run {}).1 = .ok whole := congrArg Prod.fst hrun
    rw [hok] at h
    refine ⟨whole, ?_, (Except.ok.inj h).symm⟩
    exact congrArg _ (congrArg Prod.snd hrun).symm

variable {columns : Columns} {root : Node} {text : Text}
  (htrimmed : ∀ c ∈ root.comments, Text.IsTrimmed c.text)
include htrimmed

/-- No comment is written twice and none is left out. -/
theorem accounted_of_formatTree (h : formatTree columns root = .ok text) :
    Accounted columns root := by
  obtain ⟨whole, hrun, rfl⟩ := run_of_formatTree h
  obtain ⟨hdistinct, taken, hwritten, hmem, -⟩ :=
    keeps_formatWhole (S := (· ∈ root.comments)) htrimmed columns (fun _ hc => hc) {} whole _ hrun
  rw [show ({} : Ledger).written = [] from rfl, List.append_nil] at hwritten
  refine ⟨hdistinct List.nodup_nil, fun index => ⟨fun hindex => ?_, ?_⟩⟩
  · rw [Ledger.consumed, hwritten] at hindex
    obtain ⟨comment, hcomment, rfl⟩ := List.mem_map.1 hindex
    exact ⟨comment, hmem comment (List.mem_reverse.1 hcomment), rfl⟩
  · rintro ⟨comment, hcomment, rfl⟩
    exact consumed_formatWhole hrun comment hcomment

/-- Comments that a mark cannot reach into are preserved. -/
theorem preserved_of_clearOf (hclear : ∀ c ∈ root.comments, Text.ClearOf Lexeme.endOfFile c.text)
    (h : formatTree columns root = .ok text) : Preserved columns root text := by
  obtain ⟨whole, hrun, rfl⟩ := run_of_formatTree h
  obtain ⟨-, taken, hwritten, hmem, hcarried⟩ :=
    keeps_formatWhole (S := (· ∈ root.comments)) htrimmed columns (fun _ hc => hc) {} whole _ hrun
  rw [show ({} : Ledger).written = [] from rfl, List.append_nil] at hwritten
  rw [Preserved, hwritten, List.reverse_reverse]
  exact carries_cleanEnd (fun c hc => htrimmed c (hmem c hc))
    (fun c hc => hclear c (hmem c hc)) hcarried

end Node
end VerilogLayout

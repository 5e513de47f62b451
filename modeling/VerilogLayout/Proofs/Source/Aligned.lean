import VerilogLayout.Proofs.Source.CodeLine
import VerilogLayout.Proofs.Source.Connection

/-!
# Aligning an aligned text

Whatever form a line has, its aligned line is a fixed point, `alignLine_alignLine`, and leaves open
what the line left open, `next_aligned`. So the second pass over a text goes through the same states
and changes nothing: `alignText_alignText`.
-/

namespace VerilogLayout

open Text (Stops)

section
variable (columns : Columns) (inParameters : Bool)

namespace LineForm

/-- Every form is laid out as it stands. -/
theorem settled_of_ofCode? (indent : Nat) {code : Text} {form : LineForm}
    (hlast : Stops Text.isBlank code.reverse) (h : ofCode? code = some form) :
    ∃ start code', form.layout columns indent inParameters = Text.spaces start ++ code' ∧
      Settled columns inParameters start code code' := by
  obtain ⟨hsafe, hport | ⟨-, hsignal | ⟨-, hparameter | ⟨-, hassign | ⟨-, hconnection⟩⟩⟩⟩⟩ :=
    of_ofCode? h
  · exact settled_port columns inParameters indent hport
  · exact settled_signal columns inParameters indent hsignal hsafe
  · exact settled_parameter columns inParameters indent hlast hparameter
  · exact settled_assign columns inParameters indent hassign
  · exact settled_connection columns inParameters indent hconnection

end LineForm

namespace CodeLine

open LineForm (Settled)

/-- A form with its comment is put together from its parts. -/
theorem append_comment {start : Nat} {aligned code comment : Text} (hcomment : IsComment comment)
    (h : aligned = Text.spaces start ++ code) :
    (if comment.isEmpty then aligned else aligned ++ " " ++ Text.trimRight comment) =
      written start code comment := by
  rw [h, written, behind, Text.trimRight_eq_self hcomment.last]
  split
  · rw [List.append_nil]
  · rw [List.append_assoc, List.append_assoc]
    rfl

/-- A line is left alone, or its code is laid out as it stands. -/
theorem exists_alignLine (line : Text) :
    alignLine columns inParameters line = line ∨
      ∃ parts start code, ofLine? line = some parts ∧
        Settled columns inParameters start parts.code code ∧
          alignLine columns inParameters line = written start code parts.comment := by
  cases hparts : ofLine? line with
  | none =>
      left
      rw [alignLine, hparts]
      rfl
  | some parts =>
      obtain ⟨_, _, _, -, -, -, -, -, hcode, hcomment⟩ := of_ofLine? hparts
      cases hform : LineForm.ofCode? parts.code with
      | none =>
          left
          rw [alignLine, hparts, Option.bind_some, aligned?, hform]
          rfl
      | some form =>
          obtain ⟨start, code, hlayout, hsettled⟩ := LineForm.settled_of_ofCode? columns
            inParameters parts.indent hcode.tight.last hform
          refine .inr ⟨parts, start, code, rfl, hsettled, ?_⟩
          rw [alignLine, hparts, Option.bind_some, aligned?, hform]
          exact append_comment hcomment hlayout

section
variable {columns inParameters}
variable {line code : Text} {parts : CodeLine} {start : Nat} (hparts : ofLine? line = some parts)
  (hsettled : Settled columns inParameters start parts.code code)
include hparts

/-- The parts of a line are made of its characters, without tabs. -/
theorem mem_of_ofLine? {c : CodePoint} (h : c ∈ parts.code ∨ c ∈ parts.comment) :
    c ≠ '\t' ∧ (c ∈ line ∨ c = ' ') := by
  obtain ⟨front, gap, back, -, -, -, hsplit, -⟩ := of_ofLine? hparts
  have hmem : c ∈ Text.expandTabs indentWidth line := by
    rw [hsplit]
    simp only [List.mem_append]
    rcases h with h | h
    · exact .inl (.inr (.inl (.inl h)))
    · exact .inl (.inr (.inr h))
  refine ⟨?_, Text.mem_expandTabs (by decide) hmem⟩
  rintro rfl
  exact Text.not_mem_expandTabs (by decide) line hmem

include hsettled

theorem not_mem_tab : .char '\t' ∉ code ∧ .char '\t' ∉ parts.comment := by
  refine ⟨fun hmem => ?_, fun hmem => (mem_of_ofLine? hparts (.inr hmem)).1 rfl⟩
  rcases hsettled.becomes.mem_or _ hmem with hmem | hneat
  · exact (mem_of_ofLine? hparts (.inl hmem)).1 rfl
  · exact hneat.2.1 rfl

/-- The line that is written has no new characters but neat ones. -/
theorem not_mem_written {c : CodePoint} (hc : ¬ Watch.IsNeat c) (hline : c ∉ line) :
    c ∉ written start code parts.comment := by
  have hspace : c ≠ ' ' := by
    rintro rfl
    exact hc (by decide)
  have hpart : ¬ (c ∈ parts.code ∨ c ∈ parts.comment) := fun hmem =>
    (mem_of_ofLine? hparts hmem).2.elim hline hspace
  simp only [written, behind, List.mem_append, not_or]
  refine ⟨fun hmem => hspace (List.eq_of_mem_replicate hmem), fun hmem => ?_, ?_⟩
  · rcases hsettled.becomes.mem_or _ hmem with hmem | hneat
    · exact hpart (.inl hmem)
    · exact hc hneat
  · split
    · exact List.not_mem_nil
    · rw [List.mem_cons, not_or]
      exact ⟨hspace, fun hmem => hpart (.inr hmem)⟩

/-- No comment starts in the code of a form. -/
theorem isCode_settled : IsCode code := by
  obtain ⟨_, _, _, -, -, -, -, -, hcode, -⟩ := of_ofLine? hparts
  refine ⟨hsettled.tight, ?_⟩
  rw [hsettled.becomes.along_eq {} rfl]
  exact hcode.plain

theorem alignLine_written (harray : columns .arrayKeyword = columns .signalKeyword) :
    alignLine columns inParameters (written start code parts.comment) =
      written start code parts.comment := by
  obtain ⟨_, _, _, -, -, -, -, -, -, hcomment⟩ := of_ofLine? hparts
  obtain ⟨htab, htab'⟩ := not_mem_tab hparts hsettled
  obtain ⟨c, -, hhead, -⟩ := hsettled.starts
  have hne : code ≠ [] := by
    rintro rfl
    cases hhead
  cases hagain : ofLine? (written start code parts.comment) with
  | none =>
      rw [alignLine, hagain]
      rfl
  | some found =>
      obtain rfl :=
        of_ofLine?_written (isCode_settled hparts hsettled) hcomment hne htab htab' hagain
      rw [alignLine, hagain, Option.bind_some, aligned?]
      dsimp only
      cases hform : LineForm.ofCode? code with
      | none => rfl
      | some form => exact append_comment hcomment (hsettled.again harray form hform)

end

end CodeLine

open CodeLine

/-- Aligning a line twice is aligning it once. -/
theorem alignLine_alignLine (harray : columns .arrayKeyword = columns .signalKeyword)
    (line : Text) :
    alignLine columns inParameters (alignLine columns inParameters line) =
      alignLine columns inParameters line := by
  rcases exists_alignLine columns inParameters line with
    hsame | ⟨parts, start, code, hparts, hsettled, heq⟩
  · rw [hsame, hsame]
  · rw [heq, alignLine_written hparts hsettled harray]

theorem not_mem_alignLine {c : CodePoint} (hc : ¬ Watch.IsNeat c) {line : Text} (h : c ∉ line) :
    c ∉ alignLine columns inParameters line := by
  rcases exists_alignLine columns inParameters line with
    hsame | ⟨parts, start, code, hparts, hsettled, heq⟩
  · rwa [hsame]
  · rw [heq]
    exact not_mem_written hparts hsettled hc h

namespace BlockState

/-- The states before the lines and behind the last one. -/
def along (state : BlockState) : List Text → List BlockState
  | [] => [state]
  | line :: lines => state :: along (state.next line) lines

/-- An aligned line belongs to a block comment or opens one if the line did, and leaves open what
the line left open. -/
theorem next_aligned (state : BlockState) (line : Text) :
    let aligned := if state.keeps line then line else alignLine columns state.inParameters line
    state.keeps aligned = state.keeps line ∧ state.next aligned = state.next line := by
  dsimp only
  split
  · exact ⟨rfl, rfl⟩
  · next hkeeps =>
      rcases exists_alignLine columns state.inParameters line with
        hsame | ⟨parts, start, code, hparts, hsettled, heq⟩
      · rw [hsame]
        exact ⟨rfl, rfl⟩
      · obtain ⟨_, _, _, -, -, -, -, -, hcode, hcomment⟩ := of_ofLine? hparts
        have hcode' := isCode_settled hparts hsettled
        obtain ⟨c, hhead, hhead', hc⟩ := hsettled.starts
        have hblank := hcode.tight.head c hhead
        have hholds := holds_of_ofLine? hparts
        have hholds' := holds_written hcode' hcomment (not_mem_tab hparts hsettled).1 start
        have hopen : state.inComment = false := by
          rw [keeps_eq hholds hcode.plain] at hkeeps
          exact Bool.eq_false_iff.2 hkeeps
        rw [heq, keeps_eq hholds' hcode'.plain, keeps_eq hholds hcode.plain,
          next_eq hholds' hcode'.plain hhead' hblank hc hopen,
          next_eq hholds hcode.plain hhead hblank hc hopen, hsettled.becomes.along_eq {} rfl]
        exact ⟨rfl, rfl⟩

end BlockState

theorem not_mem_alignLines {c : CodePoint} (hc : ¬ Watch.IsNeat c) {lines : List Text}
    (h : ∀ line ∈ lines, c ∉ line) (state : BlockState) :
    ∀ line ∈ alignLines columns state lines, c ∉ line := by
  induction lines generalizing state with
  | nil => exact List.forall_mem_nil _
  | cons line lines ih =>
      obtain ⟨hline, hlines⟩ := List.forall_mem_cons.1 h
      rw [alignLines]
      refine List.forall_mem_cons.2 ⟨?_, ih hlines _⟩
      split
      · exact hline
      · exact not_mem_alignLine columns _ hc hline

/-- The second pass over lines goes through the states of the first one and changes no line. -/
theorem alignLines_alignLines (harray : columns .arrayKeyword = columns .signalKeyword)
    (lines : List Text) (state : BlockState) :
    alignLines columns state (alignLines columns state lines) = alignLines columns state lines ∧
      state.along (alignLines columns state lines) = state.along lines := by
  induction lines generalizing state with
  | nil => exact ⟨rfl, rfl⟩
  | cons line lines ih =>
      obtain ⟨hkeeps, hnext⟩ := BlockState.next_aligned columns state line
      obtain ⟨hlines, hstates⟩ := ih (state.next line)
      simp only [alignLines, BlockState.along, hkeeps, hnext, hlines, hstates]
      refine ⟨?_, trivial⟩
      split
      · rfl
      · rw [alignLine_alignLine columns _ harray]

end

/-- The lines of an aligned text are the aligned lines. -/
theorem splitOn_alignText (columns : Columns) (text : Text) :
    List.splitOn (.char '\n') (alignText columns text) =
      alignLines columns {} (List.splitOn (.char '\n') text) := by
  have hne : alignLines columns {} (List.splitOn (.char '\n') text) ≠ [] := by
    refine List.ne_nil_of_length_pos ?_
    rw [length_alignLines]
    exact List.length_pos_iff.2 (List.splitOn_ne_nil (.char '\n') text)
  exact List.splitOn_intercalate _
    (not_mem_alignLines columns (by decide) (fun _ => Text.not_mem_of_mem_splitOn) {}) hne

/-- Aligning a text twice is aligning it once, if arrays start at the column of other signals; and
both passes go through the same states. -/
theorem alignText_alignText (columns : Columns)
    (harray : columns .arrayKeyword = columns .signalKeyword) (text : Text) :
    alignText columns (alignText columns text) = alignText columns text ∧
      BlockState.along {} (List.splitOn (.char '\n') (alignText columns text)) =
        BlockState.along {} (List.splitOn (.char '\n') text) := by
  obtain ⟨hagain, hstates⟩ :=
    alignLines_alignLines columns harray (List.splitOn (.char '\n') text) {}
  have hsplit := splitOn_alignText columns text
  refine ⟨?_, ?_⟩
  · rw [alignText, hsplit, hagain]
    rfl
  · rw [hsplit, hstates]

/-- The presets have arrays and other signals start at one column. -/
theorem alignText_alignText_standard :
    Columns.standard .arrayKeyword = Columns.standard .signalKeyword ∧
      alignText Columns.standard (alignText Columns.standard "reg [7:0] mem [0:3];\nassign a=b;") =
        alignText Columns.standard "reg [7:0] mem [0:3];\nassign a=b;" :=
  ⟨rfl, (alignText_alignText Columns.standard rfl _).1⟩

end VerilogLayout

import VerilogLayout.Proofs.Literal.Open
import VerilogLayout.Proofs.Literal.Value

/-!
# Strings and block comments are kept

Aligning a text moves declarations and leaves strings and block comments as they are,
`literals_alignText`, as long as two conditions hold. Where a line ends inside of a block comment,
no literal on it may mislead; and the strings of a line with a declaration have to stand in its
value, in front of its comment and without tabs.
-/

namespace VerilogLayout

open Lexing CodeLine LineForm

/-! ## One line -/

/-- The strings of a line that declares `form` are moved as they are. -/
structure IsSpared (line : Text) (form : LineForm) : Prop where
  /-- The line comment does not seem to start in a string. -/
  cut : ((Lexing.code false).along (Text.before "//" line)).IsCode
  no_tab : ∀ l ∈ (Lexing.code false).found (Text.before "//" line), .char '\t' ∉ l
  /-- Strings stand in the value. -/
  sides : ∀ side ∈ form.sides, Unquoted side

instance (line : Text) (form : LineForm) : Decidable (IsSpared line form) :=
  decidable_of_iff
    (((Lexing.code false).along (Text.before "//" line)).IsCode ∧
      (∀ l ∈ (Lexing.code false).found (Text.before "//" line), .char '\t' ∉ l) ∧
        ∀ side ∈ form.sides, Unquoted side)
    ⟨fun ⟨hcut, htab, hsides⟩ => ⟨hcut, htab, hsides⟩, fun ⟨hcut, htab, hsides⟩ =>
      ⟨hcut, htab, hsides⟩⟩

namespace Lexing

/-- What stands behind the code of a line holds no literal. -/
theorem read_before {line : Text} (hline : .char '\n' ∉ line)
    (h : ((code false).along (Text.before "//" line)).IsCode) :
    (code false).found line = (code false).found (Text.before "//" line) ∧
      ((code false).along line).next '\n' = code false := by
  obtain ⟨rest, hsplit, hrest⟩ := exists_behind_code line
  generalize Text.before "//" line = front at hsplit h ⊢
  subst hsplit
  rw [List.mem_append, not_or] at hline
  rw [found_append, along_append]
  rcases hrest with rfl | ⟨t, rfl⟩
  · exact ⟨List.append_nil _, next_feed h⟩
  · obtain ⟨slash, hslash⟩ := h
    have hfeed : .char '\n' ∉ t := fun hmem => hline.2 (List.mem_append_right _ hmem)
    obtain ⟨halong, hfound⟩ := read_slashes slash hfeed
    rw [hslash, halong, hfound, List.append_nil]
    exact ⟨rfl, rfl⟩

/-- A text has the literals of the value that it frames. -/
theorem found_of_frames {s value : Text} (h : Frames s value)
    (hplain : (Watch.along {} s).comment = false) (hs : .char '\n' ∉ s) :
    (code false).found s = (code false).found value ∧
      (((code false).along s).IsCode ↔ ((code false).along value).IsCode) := by
  obtain ⟨front, back, rfl, hfront, hback⟩ := h
  exact found_between hplain hfront hback hs

end Lexing

section
variable {line : Text} {parts : CodeLine} {form : LineForm} (hline : .char '\n' ∉ line)
  (hparts : ofLine? line = some parts) (hform : ofCode? parts.code = some form)
  (hspared : IsSpared line form)
include hline hparts hform hspared

/-- A line has the literals of its value. -/
theorem found_line :
    (code false).found line = (code false).found form.value ∧
      ((code false).along form.value).IsCode := by
  obtain ⟨_, _, _, -, -, -, -, -, hcode, -⟩ := of_ofLine? hparts
  obtain ⟨front, back, hfront, hback, heq⟩ := holds_of_ofLine? hparts
  have hkept : .char '\t' ∉ ((code false).along (Text.before "//" line)).kept := by
    obtain ⟨slash, hslash⟩ := hspared.cut
    rw [hslash]
    cases slash <;> decide
  obtain ⟨halong, hfound⟩ := read_expandTabs (show 0 < indentWidth by decide)
    (fun hmem => hline (mem_of_mem_code hmem)) hspared.no_tab hkept
  rw [BlockState.code] at heq
  rw [heq] at halong hfound
  have hframes := ((frames_code hform hspared.sides).append_left (.of_allBlank hfront)).append_right
    (.of_allBlank hback)
  have hplain := (Watch.along_blanks hfront hback parts.code).1.trans hcode.plain
  have hfeed : .char '\n' ∉ front ++ parts.code ++ back := by
    rw [← heq]
    intro hmem
    rcases Text.mem_expandTabs (by decide) hmem with hmem | hspace
    · exact hline (mem_of_mem_code hmem)
    · exact absurd hspace (by decide)
  obtain ⟨hvalue, hcodeValue⟩ := found_of_frames hframes hplain hfeed
  rw [(read_before hline hspared.cut).1, ← hfound, hvalue]
  exact ⟨rfl, hcodeValue.1 (halong ▸ hspared.cut)⟩

/-- A line that is written has the literals of its value. -/
theorem found_alignLine (columns : Columns) (inParameters : Bool) :
    (code false).found (alignLine columns inParameters line) = (code false).found form.value ∧
      ((code false).along (alignLine columns inParameters line)).next '\n' = code false := by
  obtain ⟨_, _, _, -, -, -, -, -, hcode, hcomment⟩ := of_ofLine? hparts
  obtain ⟨start, code', hlayout, hsettled⟩ :=
    settled_of_ofCode? columns inParameters parts.indent hcode.tight.last hform
  have hwritten : alignLine columns inParameters line = written start code' parts.comment := by
    rw [alignLine, hparts, Option.bind_some, aligned?, hform]
    exact append_comment hcomment hlayout
  have hfeed := not_mem_alignLine columns inParameters (by decide) hline
  rw [hwritten] at hfeed ⊢
  -- In front of the comment stands the line of the form and one space at most.
  have hcode' := isCode_settled hparts hsettled
  obtain ⟨tail, htail, hbefore⟩ : ∃ tail, Text.AllBlank tail ∧
      Text.before "//" (written start code' parts.comment) =
        Text.spaces start ++ code' ++ tail := by
    refine ⟨if parts.comment.isEmpty then [] else [.char ' '], ?_, ?_⟩
    · split
      · exact Text.allBlank_nil
      · exact Text.allBlank_spaces 1
    · have hcut := before_written hcode' hcomment
      have hslashes : ("//" : Text) = [.char '/', .char '/'] := rfl
      rw [hslashes] at hcut ⊢
      rw [written, Text.before_append_of_not_mem
        (not_mem_of_allBlank (Text.allBlank_spaces start)), hcut, List.append_assoc]
  have hframes := (frames_layout columns inParameters parts.indent hcode.tight.last hform
    hspared.sides).append_right (.of_allBlank htail)
  rw [hlayout] at hframes
  have hplain := (Watch.along_blanks (Text.allBlank_spaces start) htail code').1.trans hcode'.plain
  have hsub : .char '\n' ∉ Text.spaces start ++ code' ++ tail := by
    rw [← hbefore]
    exact fun hmem => hfeed (mem_of_mem_code hmem)
  obtain ⟨hvalue, hend⟩ := found_of_frames hframes hplain hsub
  have hcut := hend.2 (found_line hline hparts hform hspared).2
  rw [← hbefore] at hvalue hcut
  obtain ⟨hfound, hnext⟩ := read_before hfeed hcut
  rw [hfound, hvalue]
  exact ⟨rfl, hnext⟩

end

/-! ## The lines of a text -/

namespace Lexing

/-- Where the lexer stands in front of the lines of a text and behind the last one. -/
def atLines (r : Lexing) : List Text → List Lexing
  | [] => [r]
  | line :: lines => r :: atLines ((r.along line).next '\n') lines

/-- What the signs on a line say is true of its literals: `r` is where the lexer stands in front of
the line. -/
structure Tells (r : Lexing) (line : Text) : Prop where
  /-- A block comment is not left open in disguise. -/
  clear : (r.along line).IsBlock → ∀ l ∈ r.shown line, ¬ Misleads l
  spared : r = .code false → ∀ parts ∈ ofLine? line, ∀ form ∈ ofCode? parts.code,
    IsSpared line form

instance (r : Lexing) (line : Text) : Decidable (r.Tells line) :=
  decidable_of_iff
    (((r.along line).IsBlock → ∀ l ∈ r.shown line, ¬ Misleads l) ∧
      (r = .code false → ∀ parts ∈ ofLine? line, ∀ form ∈ ofCode? parts.code,
        IsSpared line form))
    ⟨fun ⟨hclear, hspared⟩ => ⟨hclear, hspared⟩, fun ⟨hclear, hspared⟩ => ⟨hclear, hspared⟩⟩

/-- In front of a line the lexer stands in code or in a block comment. -/
def AtStart (r : Lexing) : Prop :=
  r = .code false ∨ r.IsBlock

theorem atStart_next (r : Lexing) :
    AtStart (r.next '\n') ∧ ((r.next '\n').IsBlock → r.IsBlock) := by
  cases r with
  | code slash => exact ⟨.inl (by simp [next]), by simp [next, IsBlock]⟩
  | string escaped body => exact ⟨.inl rfl, id⟩
  | lineComment => exact ⟨.inl rfl, id⟩
  | blockComment star body => exact ⟨.inr (by simp [next, IsBlock]), fun _ => trivial⟩

/-- No literal ends with the line feed between two lines. -/
theorem found_intercalate (r : Lexing) (line other : Text) (lines : List Text) :
    r.found (List.intercalate "\n" (line :: other :: lines)) =
      r.found line ++
        ((r.along line).next '\n').found (List.intercalate "\n" (other :: lines)) := by
  have hnone : (r.along line).closed '\n' = [] := by
    cases r.along line <;> simp [closed, closes]
  have hfeed : ("\n" : Text) = [.char '\n'] := rfl
  rw [hfeed, List.intercalate_cons_cons, List.append_assoc, found_append, List.singleton_append,
    found_cons, hnone, List.nil_append]

end Lexing

/-- Aligning a line keeps its literals and what is open behind it. -/
theorem read_alignLines_line (columns : Columns) (state : BlockState) {r : Lexing} {line : Text}
    (hline : .char '\n' ∉ line) (hstart : r.AtStart) (hopen : r.IsBlock → state.inComment)
    (h : r.Tells line) :
    let aligned := if state.keeps line then line else alignLine columns state.inParameters line
    r.found aligned = r.found line ∧ (r.along aligned).next '\n' = (r.along line).next '\n' := by
  dsimp only
  split
  · exact ⟨rfl, rfl⟩
  · next hkeeps =>
      rw [BlockState.keeps, Bool.or_eq_true, not_or] at hkeeps
      obtain rfl : r = .code false := hstart.resolve_right fun hblock => hkeeps.1 (hopen hblock)
      cases hparts : ofLine? line with
      | none =>
          rw [alignLine, hparts]
          exact ⟨rfl, rfl⟩
      | some parts =>
          cases hform : ofCode? parts.code with
          | none =>
              rw [alignLine, hparts, Option.bind_some, aligned?, hform]
              exact ⟨rfl, rfl⟩
          | some form =>
              have hspared := h.spared rfl parts hparts form hform
              obtain ⟨hfound, hnext⟩ :=
                found_alignLine hline hparts hform hspared columns state.inParameters
              rw [hfound, hnext, (found_line hline hparts hform hspared).1,
                (read_before hline hspared.cut).2]
              exact ⟨rfl, rfl⟩

theorem found_alignLines (columns : Columns) (state : BlockState) {r : Lexing} {lines : List Text}
    (hlines : ∀ line ∈ lines, .char '\n' ∉ line) (hstart : r.AtStart)
    (hopen : r.IsBlock → state.inComment)
    (h : ∀ p ∈ (r.atLines lines).zip lines, p.1.Tells p.2) :
    r.found (List.intercalate "\n" (alignLines columns state lines)) =
      r.found (List.intercalate "\n" lines) := by
  induction lines generalizing r state with
  | nil => rfl
  | cons line lines ih =>
      obtain ⟨hline, hlines⟩ := List.forall_mem_cons.1 hlines
      obtain ⟨htells, hmore⟩ := List.forall_mem_cons.1 h
      obtain ⟨hfound, hnext⟩ := read_alignLines_line columns state hline hstart hopen htells
      obtain ⟨hatStart, hblock⟩ := atStart_next (r.along line)
      have hstill : ((r.along line).next '\n').IsBlock → (state.next line).inComment :=
        fun hin => inComment_of_along hline (hstart.imp_right hopen) (htells.clear (hblock hin))
          (hblock hin)
      have hrest := ih (state.next line) hlines hatStart hstill hmore
      cases lines with
      | nil =>
          rw [alignLines, alignLines, List.intercalate_singleton, List.intercalate_singleton]
          exact hfound
      | cons other lines =>
          rw [alignLines] at hrest
          rw [alignLines, alignLines, found_intercalate, found_intercalate, hfound, hnext, hrest]

/-- Aligning a text finds the same strings and block comments in it, character for character. -/
theorem literals_alignText (columns : Columns) {text : Text}
    (h : ∀ p ∈ (atLines (.code false) (List.splitOn (.char '\n') text)).zip
      (List.splitOn (.char '\n') text),
      p.1.Tells p.2) :
    literals (alignText columns text) = literals text ∧
      ∀ l ∈ literals text, l <:+: alignText columns text := by
  have hsame : literals (alignText columns text) = literals text := by
    have hfound := found_alignLines columns {} (fun _ => Text.not_mem_of_mem_splitOn) (.inl rfl)
      nofun h
    have hjoin : List.intercalate "\n" (List.splitOn (.char '\n') text) = text :=
      List.intercalate_splitOn _
    exact hfound.trans (congrArg literals hjoin)
  refine ⟨hsame, fun l hl => infix_of_mem_literals ?_⟩
  rwa [hsame]

/-- A string and a block comment between declarations that are moved. -/
theorem literals_alignText_name :
    let text : Text :=
      "parameter NAME=\"a  b\"; // \"c\"\n/* wire  x;\nwire  y; */\nwire [3:0]z;"
    alignText Columns.standard text ≠ text ∧
      literals (alignText Columns.standard text) =
        (["\"a  b\"", "/* wire  x;\nwire  y; */"] : List Text) := by
  intro text
  have htells : ∀ p ∈ (atLines (.code false) (List.splitOn (.char '\n') text)).zip
      (List.splitOn (.char '\n') text), p.1.Tells p.2 := by
    decide +kernel
  exact ⟨by decide +kernel, (literals_alignText Columns.standard htells).1⟩

/-- The star that starts a block comment seems to end it, and the comment is aligned. -/
example : literals (alignText Columns.standard "/*/\nwire a;\n*/") ≠
    literals "/*/\nwire a;\n*/" := by
  decide +kernel

end VerilogLayout

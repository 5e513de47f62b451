import Mathlib.Logic.Function.Iterate
import VerilogLayout.Proofs.Source.Aligned

/-!
# Arrays that move

The declaration of an array starts at a column of its own, but how far it is shifted is measured
from the column of other signals. So the two columns decide where the line stands after each run:
`alignLine_array_iterate` gives the place after any number of runs and says when the second run
changes nothing.
-/

namespace VerilogLayout

open Text (Stops)

namespace CodeLine

open LineForm Line

/-- The line is indented by `indent` and declares one array, with `keyword` as its first word. -/
def DeclaresArray (line : Text) (indent : Nat) (keyword : Text) : Prop :=
  ∃ parts signing range names dimensions value,
    ofLine? line = some parts ∧ parts.indent = indent ∧
      ofCode? parts.code = some (.signal keyword signing range names dimensions value) ∧
        dimensions ≠ []

/-! ## A declaration that is written is taken apart again -/

/-- No block comment is opened in a comment behind code. -/
theorem includes_comment_of_ofLine? {line : Text} {parts : CodeLine}
    (h : ofLine? line = some parts) : Text.includes parts.comment "/*" = false := by
  obtain ⟨hpass, rfl⟩ := ofLine?_eq_some.1 h
  simp only [passesOver, Bool.or_eq_false_iff] at hpass
  exact Text.includes_eq_false_of_infix hpass.1.2 (List.drop_suffix _ _).isInfix

/-- No block comment is opened where code and comment meet. -/
theorem includes_append_behind {code comment : Text} (hcode : Text.includes code "/*" = false)
    (hcomment : Text.includes comment "/*" = false) :
    Text.includes (code ++ behind comment) "/*" = false := by
  have hpair : ("/*" : Text) = [.char '/', .char '*'] := rfl
  rw [hpair] at hcode hcomment ⊢
  unfold behind
  split
  · rwa [List.append_nil]
  · rw [Text.includes_append (.inr (by simp)), Text.includes_cons, hcode, hcomment]
    simp

theorem not_mem_controlWords : ∀ word ∈ signalKeywords, word ∉ controlWords := by
  decide

/-- A line that starts with a signal's first word and holds no block comment is not passed over. -/
theorem passesOver_eq_false {keyword rest : Text} (hkeyword : keyword ∈ signalKeywords)
    (hrest : Stops (fun c => !(Text.isBlank c || c = '(' || c = ';')) rest)
    (hblock : Text.includes (keyword ++ rest) "/*" = false) :
    passesOver (keyword ++ rest) = false := by
  have hword := isKeyword_of_mem_signalKeywords keyword hkeyword
  obtain ⟨c, word, rfl⟩ := List.exists_cons_of_ne_nil hword.1
  have hc : Text.isWord c := hword.2 c List.mem_cons_self
  -- The line starts with a word, so neither a comment nor a star stands first.
  have hstart : ∀ d t, Text.isWord d = false →
      Text.startsWith (c :: word ++ rest) (d :: t) = false := by
    intro d t hd
    rw [Bool.eq_false_iff, ne_eq, Text.startsWith_iff, List.cons_append, List.cons_prefix_cons]
    rintro ⟨rfl, -⟩
    rw [hc] at hd
    cases hd
  have hfirst : firstWord (c :: word ++ rest) = c :: word := by
    refine Text.takeWhile_append (fun d hd => ?_) hrest
    have hisWord := hword.2 d hd
    have hblank : Text.isBlank d = false := by
      rw [Bool.eq_false_iff]
      intro hblank
      rw [Text.isWord_eq_false hblank] at hisWord
      cases hisWord
    have hopening : d ≠ '(' := by
      rintro rfl
      exact absurd hisWord (by decide)
    have hsemicolon : d ≠ ';' := by
      rintro rfl
      exact absurd hisWord (by decide)
    simp [hblank, hopening, hsemicolon]
  simp only [passesOver, Bool.or_eq_false_iff]
  refine ⟨⟨⟨⟨rfl, hstart '/' [.char '/'] (by decide)⟩, hstart '*' [] (by decide)⟩, hblock⟩, ?_⟩
  · rw [hfirst, Bool.eq_false_iff]
    exact fun hmem => not_mem_controlWords _ hkeyword (List.contains_iff_mem.1 hmem)

/-- Only the reader of signals reads signals. -/
theorem signal?_of_ofCode? {code keyword signing range : Text} {names dimensions : List Text}
    {value : Option Text} (hlast : Stops Text.isBlank code.reverse)
    (h : ofCode? code = some (.signal keyword signing range names dimensions value)) :
    signal? code = some (.signal keyword signing range names dimensions value) := by
  rcases (of_ofCode? h).2 with hfound | ⟨-, hfound | ⟨-, hfound | ⟨-, hfound | ⟨-, hfound⟩⟩⟩⟩
  · obtain ⟨_, _, _, _, _, _, heq, -⟩ := of_port? hfound
    cases heq
  · exact hfound
  · obtain ⟨_, _, _, _, _, heq, -⟩ := of_parameter? (fun _ => 0) hlast hfound
    cases heq
  · obtain ⟨_, _, heq, -⟩ := of_assign? hfound
    cases heq
  · obtain ⟨_, _, _, _, heq, -⟩ := of_connection? hfound
    cases heq

/-- The code of safe signals is read as those signals. -/
theorem ofCode?_written {keyword signing range : Text} {names dimensions : List Text}
    {value : Option Text} (h : IsSignal keyword signing range names dimensions value)
    {b c d e n : Nat} (hb : 0 < b) (hc : 0 < c) (hd : 0 < d) (he : 0 < e)
    (hsafe : (LineForm.signal keyword signing range names dimensions value).isSafe) :
    ofCode? (keyword ++ (gapped b signing ++ (gapped c range ++ (Text.spaces d ++
      (List.intercalate ", " names ++ (gapped e dimensions.flatten ++
        (initialText value ++ gapped n [.char ';']))))))) =
      some (.signal keyword signing range names dimensions value) := by
  have hstops := stops_gapped (p := Text.isWord) rfl hb signing (stops_gapped rfl hc range
    (stops_spaces rfl hd (List.intercalate ", " names ++ (gapped e dimensions.flatten ++
      (initialText value ++ gapped n [.char ';'])))))
  have hfirst := takeWhile_keyword (isKeyword_of_mem_signalKeywords keyword h.keyword) hstops
  have hport := port?_eq_none (hfirst ▸ not_mem_directions keyword h.keyword)
  rw [ofCode?, hport, signal?_written h hb hc hd he]
  exact Option.filter_eq_some_iff.2 ⟨rfl, hsafe⟩

/-- Spaces in front of another character are counted. -/
theorem spaces_append_inj {m n : Nat} {s t : Text} (hs : Stops (fun c => decide (c = ' ')) s)
    (ht : Stops (fun c => decide (c = ' ')) t) (h : Text.spaces m ++ s = Text.spaces n ++ t) :
    m = n ∧ s = t := by
  have hrun : ∀ k, ∀ c ∈ Text.spaces k, decide (c = ' ') = true :=
    fun k c hc => decide_eq_true (List.eq_of_mem_replicate hc)
  have hspaces : Text.spaces m = Text.spaces n := by
    rw [← Text.takeWhile_append (hrun m) hs, h, Text.takeWhile_append (hrun n) ht]
  refine ⟨?_, List.append_cancel_left (hspaces ▸ h)⟩
  simpa [Text.spaces] using congrArg List.length hspaces

theorem stops_space {s : Text} (h : Stops Text.isBlank s) :
    Stops (fun c => decide (c = ' ')) s := by
  intro c hc
  refine decide_eq_false ?_
  rintro rfl
  exact absurd (h _ hc) (by decide)

section
variable (columns : Columns) (inParameters : Bool)
variable {line keyword signing range : Text} {parts : CodeLine} {names dimensions : List Text}
  {value : Option Text}

/-- An array that has been laid out is read as the same array with its ranges in their fields. -/
theorem exists_array (hparts : ofLine? line = some parts)
    (hform : ofCode? parts.code = some (.signal keyword signing range names dimensions value))
    (hne : dimensions ≠ []) :
    let start := columns .arrayKeyword + shiftFor parts.indent (columns .signalKeyword)
    let again := LineForm.signal keyword signing (writtenRange columns range) names
      (dimensions.map (Range.normalise columns)) none
    keyword ∈ signalKeywords ∧ ∃ rest,
      alignLine columns inParameters line = written start (keyword ++ rest) parts.comment ∧
        ofLine? (written start (keyword ++ rest) parts.comment) =
          some { indent := start, code := keyword ++ rest, comment := parts.comment } ∧
        ofCode? (keyword ++ rest) = some again ∧
          ∀ indent, shiftFor indent (columns .signalKeyword) =
            shiftFor parts.indent (columns .signalKeyword) →
              again.layout columns indent inParameters =
                Text.spaces start ++ (keyword ++ rest) := by
  intro start again
  obtain ⟨_, _, _, -, -, -, -, -, hcode, hcomment⟩ := of_ofLine? hparts
  have hsignal := signal?_of_ofCode? hcode.tight.last hform
  have hsafe := (of_ofCode? hform).1
  obtain ⟨start', code', hlayout, hsettled⟩ :=
    settled_signal columns inParameters parts.indent hsignal hsafe
  obtain ⟨_, _, _, _, _, _, heq, hfields, -⟩ := of_signal? hsignal hsafe
  obtain ⟨rfl, rfl, rfl, rfl, rfl, rfl⟩ := LineForm.signal.inj heq
  obtain ⟨b, c, d, e, n, ⟨hb, hc, hd, he⟩, hline⟩ :=
    exists_layout_signal columns inParameters parts.indent hfields
  have hvector := hfields.vector
  have hvalue : value = none := hfields.safe.resolve_left hne
  subst hvalue
  have hfields' : IsSignal keyword signing (writtenRange columns range) names
      (dimensions.map (Range.normalise columns)) none :=
    { hfields with
      vector := { hvector with range := isOptional_writtenRange columns hvector.range }
      isRange := isRange_dimensions columns hfields.isRange
      safe := .inr rfl }
  -- The line is the one that is known to be settled.
  have hfirst : firstColumn columns dimensions = columns .arrayKeyword :=
    if_neg (mt List.isEmpty_iff.1 hne)
  obtain ⟨rfl, rfl⟩ := spaces_append_inj (stops_space hsettled.tight.head)
    (stops_space (isTight_signal hfields' b c d e n).head) (hlayout.symm.trans hline)
  rw [hfirst] at hlayout hsettled
  have hword := isKeyword_of_mem_signalKeywords keyword hfields.keyword
  have hcode' := isCode_settled hparts hsettled
  obtain ⟨htab, htab'⟩ := not_mem_tab hparts hsettled
  refine ⟨hfields.keyword, _, ?_, ofLine?_written hcode' hcomment
    (List.append_ne_nil_of_left_ne_nil hword.1 _) htab htab' ?_ _, ?_, ?_⟩
  · rw [alignLine, hparts, Option.bind_some, aligned?, hform]
    exact append_comment hcomment hlayout
  · have hblock := (Watch.comment_along_eq_false.1 hcode'.plain).2
    have hover := includes_append_behind hblock (includes_comment_of_ofLine? hparts)
    rw [List.append_assoc] at hover ⊢
    refine passesOver_eq_false hfields.keyword ?_ hover
    simp only [List.append_assoc]
    exact stops_gapped rfl hb signing (stops_gapped rfl hc (writtenRange columns range)
      (stops_spaces rfl hd _))
  · exact ofCode?_written hfields' hb hc hd he (by simpa [isSafe, hne] using hsafe)
  · intro indent hshift
    rw [← hlayout, layout, layout, writtenRange_writtenRange columns hvector.range,
      normalise_dimensions columns, hshift]

variable {indent : Nat} (h : DeclaresArray line indent keyword)
include h

/-- One run over an array's line: its start, and what the next run reads. -/
theorem DeclaresArray.next :
    keyword ∈ signalKeywords ∧
      (∃ rest, alignLine columns inParameters line =
        Text.spaces (columns .arrayKeyword + shiftFor indent (columns .signalKeyword)) ++
          (keyword ++ rest)) ∧
      DeclaresArray (alignLine columns inParameters line)
        (columns .arrayKeyword + shiftFor indent (columns .signalKeyword)) keyword := by
  obtain ⟨parts, signing, range, names, dimensions, value, hparts, rfl, hform, hne⟩ := h
  obtain ⟨hkeyword, rest, halign, hread, hagain, -⟩ :=
    exists_array columns inParameters hparts hform hne
  refine ⟨hkeyword, ⟨rest ++ behind parts.comment, ?_⟩, ?_⟩
  · rw [halign, written, List.append_assoc]
  · rw [halign]
    exact ⟨_, signing, _, names, _, none, hread, rfl, hagain, mt List.map_eq_nil_iff.1 hne⟩

/-- A run that finds the shift again changes nothing. -/
theorem DeclaresArray.again
    (hshift : shiftFor (columns .arrayKeyword + shiftFor indent (columns .signalKeyword))
      (columns .signalKeyword) = shiftFor indent (columns .signalKeyword)) :
    alignLine columns inParameters (alignLine columns inParameters line) =
      alignLine columns inParameters line := by
  obtain ⟨parts, signing, range, names, dimensions, value, hparts, rfl, hform, hne⟩ := h
  obtain ⟨-, rest, halign, hread, hagain, hlayout⟩ :=
    exists_array columns inParameters hparts hform hne
  obtain ⟨_, _, _, -, -, -, -, -, -, hcomment⟩ := of_ofLine? hparts
  rw [halign, alignLine, hread, Option.bind_some, aligned?, hagain]
  exact append_comment hcomment (hlayout _ hshift)

end
end CodeLine

/-! ## Run after run -/

namespace LineForm

/-- The shift of an array's line after `n` more runs: each run adds the levels from the column of
other signals up to that of arrays, or takes away those in the other direction. -/
def shiftAfter (columns : Columns) (shift n : Nat) : Nat :=
  shift + n * shiftFor (columns .arrayKeyword) (columns .signalKeyword) -
    n * shiftFor (columns .signalKeyword + (indentWidth - 1)) (columns .arrayKeyword)

theorem shiftAfter_zero (columns : Columns) (shift : Nat) : shiftAfter columns shift 0 = shift := by
  rw [shiftAfter, Nat.zero_mul, Nat.zero_mul]
  rfl

/-- The shift that the next run measures of a line that stands shifted from the array's column. -/
theorem shiftFor_shiftAfter (columns : Columns) (indent n : Nat) :
    let shift := shiftFor indent (columns .signalKeyword)
    shiftFor (columns .arrayKeyword + shiftAfter columns shift n) (columns .signalKeyword) =
      shiftAfter columns shift (n + 1) := by
  have hmul : ∀ k, n * (k * 4) = 4 * (n * k) := fun k => by
    rw [← Nat.mul_assoc, Nat.mul_comm]
  dsimp only [shiftAfter, shiftFor, indentWidth]
  rw [Nat.succ_mul, Nat.succ_mul, hmul, hmul]
  -- Only one of the two columns is left of the other.
  rcases Nat.le_total (columns .signalKeyword) (columns .arrayKeyword) with hle | hle
  · have hleft : (columns .signalKeyword + (4 - 1) - columns .arrayKeyword) / 4 = 0 := by omega
    rw [hleft, Nat.mul_zero]
    generalize n * ((columns .arrayKeyword - columns .signalKeyword) / 4) = right
    omega
  · have hright : (columns .arrayKeyword - columns .signalKeyword) / 4 = 0 := by omega
    rw [hright, Nat.mul_zero]
    generalize n * ((columns .signalKeyword + (4 - 1) - columns .arrayKeyword) / 4) = left
    omega

theorem shiftFor_array_eq_iff (columns : Columns) (indent : Nat) :
    let shift := shiftFor indent (columns .signalKeyword)
    shiftFor (columns .arrayKeyword + shift) (columns .signalKeyword) = shift ↔
      columns .arrayKeyword < columns .signalKeyword + indentWidth ∧
        (shift = 0 ∨ columns .signalKeyword ≤ columns .arrayKeyword) := by
  dsimp only [shiftFor, indentWidth]
  omega

end LineForm

open CodeLine LineForm

section
variable (columns : Columns) (inParameters : Bool)
variable {line keyword : Text} {indent : Nat} (h : DeclaresArray line indent keyword)
include h

/-- Every run reads the array again that the run before it has written. -/
theorem CodeLine.DeclaresArray.iterate (n : Nat) :
    let start := columns .arrayKeyword +
      shiftAfter columns (shiftFor indent (columns .signalKeyword)) n
    (∃ rest, (alignLine columns inParameters)^[n] (alignLine columns inParameters line) =
      Text.spaces start ++ (keyword ++ rest)) ∧
    DeclaresArray ((alignLine columns inParameters)^[n] (alignLine columns inParameters line)) start
      keyword := by
  induction n with
  | zero =>
      rw [shiftAfter_zero]
      exact (h.next columns inParameters).2
  | succ n ih =>
      have hnext := (ih.2.next columns inParameters).2
      rw [Function.iterate_succ_apply']
      rwa [shiftFor_shiftAfter] at hnext

end

/-- An array's line stands at the array's column and shifted by what `shiftAfter` says, after any
number of runs over it; and the second run changes nothing if and only if the array's column is less
than a level right of that of other signals and, for a line that is shifted, not left of it. No line
of a text holds a line feed. This line may hold one all the same, since `alignLine` looks for none;
`alignLine?` refuses it. -/
theorem alignLine_array_iterate (columns : Columns) (inParameters : Bool) {line keyword : Text}
    {indent : Nat} (h : DeclaresArray line indent keyword) :
    let shift := shiftFor indent (columns .signalKeyword)
    let aligned := alignLine columns inParameters line
    keyword ∈ signalKeywords ∧
      (∀ n, ∃ rest, (alignLine columns inParameters)^[n] aligned =
        Text.spaces (columns .arrayKeyword + shiftAfter columns shift n) ++ (keyword ++ rest)) ∧
      (alignLine columns inParameters aligned = aligned ↔
        columns .arrayKeyword < columns .signalKeyword + indentWidth ∧
          (shift = 0 ∨ columns .signalKeyword ≤ columns .arrayKeyword)) := by
  intro shift aligned
  obtain ⟨hkeyword, ⟨rest, hfirst⟩, hread⟩ := h.next columns inParameters
  refine ⟨hkeyword, fun n => (h.iterate columns inParameters n).1, ?_⟩
  refine Iff.trans ⟨fun hsame => ?_, h.again columns inParameters⟩
    (shiftFor_array_eq_iff columns indent)
  obtain ⟨-, ⟨rest', hsecond⟩, -⟩ := hread.next columns inParameters
  have hstops : ∀ rest : Text, Stops (fun c => decide (c = ' ')) (keyword ++ rest) := by
    have hword := isKeyword_of_mem_signalKeywords keyword hkeyword
    exact fun rest => stops_space (starts_of_isKeyword hword [] rest).1
  have hlines := hfirst.symm.trans (hsame.symm.trans hsecond)
  have hstart := (spaces_append_inj (hstops rest) (hstops rest') hlines).1
  exact (Nat.add_left_cancel hstart).symm

/-- Arrays two levels in, other signals one level in: the line moves by a level on every run. -/
theorem alignLine_array_iterate_right :
    let columns := Columns.standard.set .arrayKeyword 8
    let line : Text := "reg [7:0] mem [0:3]; // words"
    DeclaresArray line 0 "reg" ∧
      (∀ n, ∃ rest, (alignLine columns false)^[n] (alignLine columns false line) =
        Text.spaces (8 + 4 * n) ++ ("reg" ++ rest)) ∧
      alignLine columns false (alignLine columns false line) ≠ alignLine columns false line := by
  intro columns line
  have hline : DeclaresArray line 0 "reg" :=
    ⟨⟨0, "reg [7:0] mem [0:3];", "// words"⟩, [], "[7:0]", [("mem" : Text)], [("[0:3]" : Text)],
      none,
      by decide +kernel, rfl, by decide +kernel, List.cons_ne_nil _ _⟩
  obtain ⟨-, hstart, hagain⟩ := alignLine_array_iterate columns false hline
  refine ⟨hline, fun n => ?_, mt hagain.1 (by decide)⟩
  obtain ⟨rest, hrest⟩ := hstart n
  have hshift : shiftAfter columns (shiftFor 0 (columns .signalKeyword)) n = 4 * n := by
    have hright : shiftFor (columns .arrayKeyword) (columns .signalKeyword) = 4 := by decide
    have hleft : shiftFor (columns .signalKeyword + (indentWidth - 1)) (columns .arrayKeyword) =
        0 := by decide
    rw [shiftAfter, hright, hleft, show shiftFor 0 (columns .signalKeyword) = 0 by decide]
    omega
  rw [hshift] at hrest
  exact ⟨rest, hrest⟩

end VerilogLayout

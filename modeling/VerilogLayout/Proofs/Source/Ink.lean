import VerilogLayout.Proofs.Source.Aligned
import VerilogLayout.Proofs.Source.ReadInk

/-!
# Aligning moves only blanks

Placing a field adds spaces and the field, so a layout has the ink of its fields, and the line of a
form has the ink of the code that it was read from. The one exception is a parameter with a blank
value, whose equals sign is left out: `HasBlankValue` says which codes these are.
-/

namespace VerilogLayout

open Text (ink ink_append ink_nil AllBlank Stops)

/-! ## Layouts -/

namespace Line

/-- An appended text adds its ink. -/
theorem ink_text_append (line : Line) (text : Text) :
    ink (line.append text).text = ink line.text ++ ink text :=
  ink_append line.text text

/-- A placed field adds its ink. -/
theorem ink_place (line : Line) (field : Text) (target gap : Int) :
    ink (line.place field target gap).text = ink line.text ++ ink field := by
  unfold place
  split
  · next hempty => rw [List.isEmpty_iff.1 hempty, ink_nil, List.append_nil]
  · rw [ink_text_append, ink_append, Text.ink_spaces, List.nil_append]

/-- An appended word adds its ink. -/
theorem ink_appendWord (line : Line) (word : Text) :
    ink (Layout.appendWord line word).text = ink line.text ++ ink word := by
  unfold Layout.appendWord
  split
  · next hempty => rw [List.isEmpty_iff.1 hempty, ink_nil, List.append_nil]
  · rw [ink_text_append, ink_append, Text.ink_space, List.nil_append]

/-- A terminator adds its ink. -/
theorem ink_placeTerminator (line : Line) (terminator : Text) (column : Int) :
    ink (Layout.placeTerminator line terminator column).text = ink line.text ++ ink terminator := by
  unfold Layout.placeTerminator
  split
  · exact ink_place line terminator column 0
  · exact ink_text_append line terminator

end Line

open Line

namespace Range

/-- A text keeps its ink when it is normalised as a range. -/
theorem ink_normalise (columns : Columns) (s : Text) : ink (normalise columns s) = ink s := by
  unfold normalise
  cases hsplit : split? s with
  | none => exact Text.ink_trim s
  | some bounds =>
      obtain ⟨upper, lower⟩ := bounds
      obtain ⟨hbounds, a, b, c, d, hblank, htrim⟩ := exists_of_split? hsplit
      simp only [List.forall_mem_append] at hblank
      obtain ⟨⟨⟨ha, hb⟩, hc⟩, hd⟩ := hblank
      have hcolon : ∀ s, ink (.char ':' :: s) = .char ':' :: ink s := Text.ink_cons rfl
      have hbracket : ∀ s, ink (.char '[' :: s) = .char '[' :: ink s := Text.ink_cons rfl
      rw [← Text.ink_trim s, htrim]
      simp [format, Text.padLeft, Text.padRight, Text.trim_eq_self hbounds.upper_tight,
        Text.trim_eq_self hbounds.lower_tight, hcolon, hbracket, Text.ink_eq_nil ha,
        Text.ink_eq_nil hb, Text.ink_eq_nil hc, Text.ink_eq_nil hd]

end Range

namespace LineForm

open Scan

section
variable (columns : Columns)

/-- A range is written with its ink. -/
theorem ink_writtenRange {range : Text} (h : Range.IsOptional range) :
    ink (writtenRange columns range) = ink range := by
  rcases h with rfl | h
  · rfl
  · rw [writtenRange_of_isRange columns h, Range.ink_normalise]

/-- A modifier is written with its ink. -/
theorem ink_writtenModifier {modifier : Text} (h : IsModifier modifier) :
    ink (writtenModifier columns modifier) = ink modifier := by
  rcases h with h | h
  · rw [writtenModifier_of_mem columns h]
  · rw [writtenModifier_of_isRange columns h, Range.ink_normalise]

/-- Modifiers are written with their ink. -/
theorem ink_modifiers {modifiers : List Text} (h : ∀ m ∈ modifiers, IsModifier m) :
    ink (List.intercalate " " (modifiers.map (writtenModifier columns))) =
      ink modifiers.flatten := by
  rw [Text.ink_intercalate _ rfl, Text.ink_flatten, List.flatMap_map]
  exact congrArg List.flatten <| List.map_congr_left fun modifier hmem =>
    ink_writtenModifier columns (h modifier hmem)

/-- Dimensions are written with their ink. -/
theorem ink_dimensions (dimensions : List Text) :
    ink (dimensions.map (Range.normalise columns)).flatten = ink dimensions.flatten := by
  rw [Text.ink_flatten, Text.ink_flatten, List.flatMap_map]
  exact congrArg List.flatten <| List.map_congr_left fun dimension _ =>
    Range.ink_normalise columns dimension

variable (indent : Nat) (inParameters : Bool)

/-- The line of a port has the ink of its fields. -/
theorem ink_layout_port {keyword net signing range terminator : Text} {names : List Text}
    (h : Range.IsOptional range) :
    ink (layout columns indent inParameters (.port keyword net signing range names terminator)) =
      (port keyword net signing range names terminator).fields.flatMap ink := by
  rw [layout, Layout.port]
  simp only [ink_placeTerminator, ink_place, ink_appendWord, ink_writtenRange columns h,
    writtenNames_eq, initialText, fields, ink_nil, List.flatMap_cons, List.flatMap_nil,
    List.append_nil, List.nil_append, List.append_assoc]

/-- A value stands behind the names, and dimensions do, but never both. -/
theorem ink_layout_signal {keyword signing range : Text} {names dimensions : List Text}
    {value : Option Text} (h : IsSignal keyword signing range names dimensions value) :
    ink (layout columns indent inParameters
      (.signal keyword signing range names dimensions value)) =
        (signal keyword signing range names dimensions value).fields.flatMap ink := by
  have hrange := ink_writtenRange columns h.vector.range
  have hdimensions := ink_dimensions columns dimensions
  have horder : ink (initialText value) ++ ink dimensions.flatten =
      ink dimensions.flatten ++ ink (initialText value) := by
    rcases h.safe with rfl | rfl
    · exact List.append_nil _
    · exact (List.append_nil _).symm
  rw [layout, Layout.signal]
  split
  · next hempty =>
      have hnil : (dimensions.map (Range.normalise columns)).flatten = [] :=
        List.isEmpty_iff.1 hempty
      rw [hnil, ink_nil] at hdimensions
      rw [Layout.scalar]
      simp only [ink_placeTerminator, ink_place, ink_appendWord, hrange, writtenNames_eq, fields,
        ← hdimensions, ink_append, ink_nil, List.flatMap_cons, List.flatMap_nil, List.append_nil,
        List.nil_append, List.append_assoc]
  · rw [Layout.array]
    simp only [ink_placeTerminator, ink_place, ink_appendWord, hrange, hdimensions,
      writtenNames_eq, fields, ink_append, ink_nil, List.flatMap_cons, List.flatMap_nil,
      List.append_nil, List.nil_append, List.append_assoc]
    rw [← List.append_assoc (ink (initialText value)), horder, List.append_assoc]

/-- The line of a parameter with a value has the ink of its fields. -/
theorem ink_layout_parameter {keyword name value terminator : Text} {modifiers : List Text}
    (h : ∀ m ∈ modifiers, IsModifier m) (hvalue : value ≠ []) :
    ink (layout columns indent inParameters (.parameter keyword modifiers name value terminator)) =
      (parameter keyword modifiers name value terminator).fields.flatMap ink := by
  have hspace : ink (" " : Text) = [] := rfl
  rw [layout, Layout.parameter]
  dsimp only
  rw [if_neg fun hempty => hvalue (List.isEmpty_iff.1 hempty)]
  simp only [ink_placeTerminator, ink_place, ink_appendWord, ink_text_append, ink_append, hspace,
    ink_modifiers columns h, fields, ink_nil, List.flatMap_cons, List.flatMap_nil, List.append_nil,
    List.nil_append, List.append_assoc]

/-- The line of an assignment has the ink of its fields. -/
theorem ink_layout_assign (target value : Text) :
    ink (layout columns indent inParameters (.assign target value)) =
      (assign target value).fields.flatMap ink := by
  have hspace : ink (" " : Text) = [] := rfl
  rw [layout, Layout.assign]
  dsimp only [List.foldl_nil]
  simp only [ink_place, ink_text_append, ink_append, hspace, fields, ink_nil, List.flatMap_cons,
    List.flatMap_nil, List.append_nil, List.nil_append, List.append_assoc]

/-- The line of a connection has the ink of its fields. -/
theorem ink_layout_connection (name value terminator : Text) :
    ink (layout columns indent inParameters (.connection name value terminator)) =
      (connection name value terminator).fields.flatMap ink := by
  rw [layout, Layout.connection]
  simp only [ink_place, ink_text_append, ink_append, Text.ink_spaces, fields, ink_nil,
    List.flatMap_cons, List.flatMap_nil, List.append_nil, List.nil_append, List.append_assoc]

end

/-! ## Parameters with a blank value -/

/-- Modifiers and a name, each with blanks behind it. A word among the modifiers ends where the
word ends. -/
inductive IsNaming : Text → Prop where
  | name {name gap : Text} (hname : IsName name) (hgap : AllBlank gap) : IsNaming (name ++ gap)
  | word {word gap s : Text} (hmem : word ∈ parameterTypes) (hgap : AllBlank gap)
      (hend : Stops Text.isWord (gap ++ s)) (hs : IsNaming s) : IsNaming (word ++ (gap ++ s))
  | range {range gap s : Text} (hrange : Range.IsRange range) (hgap : AllBlank gap)
      (hs : IsNaming s) : IsNaming (range ++ (gap ++ s))

/-- The code declares a parameter, its keyword ends where the word ends, and between its equals sign
and its semicolon there are only blanks. -/
def HasBlankValue (code : Text) : Prop :=
  ∃ keyword gap naming value, keyword ∈ parameterKeywords ∧ AllBlank gap ∧
    Stops Text.isWord (gap ++ naming) ∧ IsNaming naming ∧ AllBlank value ∧
    code = keyword ++ (gap ++ (naming ++ .char '=' :: (value ++ [.char ';'])))

section
variable {s terminator : Text}

/-- A value that is read as empty was blank. -/
theorem of_blank_parameterValue? (h : parameterValue? s = some ([], terminator)) :
    ∃ value, AllBlank value ∧ s = value ++ [.char ';'] := by
  obtain ⟨hsplit, hblank, hstops⟩ := Text.exists_run Text.isBlank s
  generalize hvalue : ([] : Text) = value at h
  cases readsValue_of_parameterValue? h with
  | blank htrim =>
      have hrest : s.dropWhile Text.isBlank = [.char ';'] := htrim
      rw [hrest] at hsplit
      exact ⟨_, hblank, hsplit⟩
  | @ended rest c t _ htrim _ =>
      have hrest : s.dropWhile Text.isBlank = c :: (rest ++ [t]) := htrim
      rw [hrest] at hstops
      have hink := Text.ink_trimRight (c :: rest)
      rw [← hvalue, Text.ink_cons (Text.stops_cons.1 hstops)] at hink
      cases hink
  | opened => cases hvalue

/-- A named value that is read as empty has a name and an equals sign in front of blanks. -/
theorem of_blank_namedValue? {name : Text} (h : namedValue? s = some (name, [], terminator)) :
    ∃ naming value, IsNaming naming ∧ AllBlank value ∧
      s = naming ++ .char '=' :: (value ++ [.char ';']) := by
  obtain ⟨⟨found, rest⟩, hname, h⟩ := Option.bind_eq_some_iff.1 h
  dsimp only at h
  split at h
  · next t heq =>
      obtain ⟨⟨value', terminator'⟩, hvalue, heq'⟩ := Option.map_eq_some_iff.1 h
      obtain ⟨-, heq'⟩ := Prod.mk.inj heq'
      obtain ⟨rfl, rfl⟩ := Prod.mk.inj heq'
      obtain ⟨value, hblank, rfl⟩ := of_blank_parameterValue? hvalue
      obtain ⟨hsplit, hgap, -⟩ := Text.exists_run Text.isBlank rest
      have hrest : rest.dropWhile Text.isBlank = .char '=' :: (value ++ [.char ';']) := heq
      rw [hrest] at hsplit
      refine ⟨_, value, .name (isName_of_name? hname) hgap, hblank, ?_⟩
      rw [List.append_assoc, ← hsplit, append_of_name? hname]
  · cases h

/-- A modifier is read with the blanks behind it. -/
theorem exists_gap_of_modifier? {modifier rest : Text} (h : modifier? s = some (modifier, rest)) :
    ∃ gap, AllBlank gap ∧ s = modifier ++ (gap ++ rest) ∧
      (modifier ∈ parameterTypes ∧ Stops Text.isWord (gap ++ rest) ∨ Range.IsRange modifier) := by
  have hgap : ∀ behind : Text, ∃ gap, AllBlank gap ∧ behind = gap ++ Text.trimLeft behind :=
    fun behind => have hrun := Text.exists_run Text.isBlank behind
      ⟨_, hrun.2.1, hrun.1⟩
  rcases of_orElse h with h | ⟨-, h⟩
  · obtain ⟨hmem, -, behind, rfl, hend, rfl⟩ := of_keyword? h
    obtain ⟨gap, hblank, hbehind⟩ := hgap behind
    rw [hbehind] at hend
    exact ⟨gap, hblank, congrArg (modifier ++ ·) hbehind, .inl ⟨hmem, hend⟩⟩
  · obtain ⟨⟨range, behind⟩, hrange, heq⟩ := Option.map_eq_some_iff.1 h
    obtain ⟨rfl, rfl⟩ := Prod.mk.inj heq
    obtain ⟨gap, hblank, hbehind⟩ := hgap behind
    refine ⟨gap, hblank, ?_, .inr (isRange_of_range? hrange)⟩
    rw [← hbehind, append_of_range? hrange]

/-- Behind modifiers, too, an empty value is one of blanks. -/
theorem of_blank_modified? {fuel : Nat} {modifiers : List Text} {name : Text}
    (h : modified? fuel s = some (modifiers, name, [], terminator)) :
    ∃ naming value, IsNaming naming ∧ AllBlank value ∧
      s = naming ++ .char '=' :: (value ++ [.char ';']) := by
  have hplain : ∀ {s : Text} {modifiers : List Text}, (namedValue? s).map ([], ·) =
      some (modifiers, name, [], terminator) → ∃ naming value, IsNaming naming ∧
        AllBlank value ∧ s = naming ++ .char '=' :: (value ++ [.char ';']) := by
    intro s modifiers h
    obtain ⟨named, hnamed, heq⟩ := Option.map_eq_some_iff.1 h
    obtain ⟨rfl, rfl⟩ := Prod.mk.inj heq
    exact of_blank_namedValue? hnamed
  induction fuel generalizing s modifiers with
  | zero => exact hplain h
  | succ fuel ih =>
      rcases of_orElse h with h | ⟨-, h⟩
      · obtain ⟨⟨modifier, rest⟩, hmodifier, h⟩ := Option.bind_eq_some_iff.1 h
        obtain ⟨⟨others, named⟩, hrec, h⟩ := Option.bind_eq_some_iff.1 h
        obtain ⟨rfl, rfl⟩ := Prod.mk.inj (Option.some.inj h)
        obtain ⟨naming, value, hnaming, hblank, rfl⟩ := ih hrec
        obtain ⟨gap, hgap, rfl, ⟨hmem, hend⟩ | hrange⟩ := exists_gap_of_modifier? hmodifier
        · rw [← List.append_assoc] at hend
          exact ⟨_, value, .word hmem hgap hend.left hnaming, hblank, by simp⟩
        · exact ⟨_, value, .range hrange hgap hnaming, hblank, by simp⟩
      · exact hplain h

/-- A line that is read as a parameter with an empty value is one of the exceptions. -/
theorem of_blank_parameter? {code keyword name : Text} {modifiers : List Text}
    (h : parameter? code = some (.parameter keyword modifiers name [] terminator)) :
    HasBlankValue code := by
  obtain ⟨⟨keyword', rest⟩, hkeyword, h⟩ := Option.bind_eq_some_iff.1 h
  obtain ⟨⟨modifiers', name', value, terminator'⟩, hmodified, h⟩ := Option.bind_eq_some_iff.1 h
  obtain ⟨-, -, -, rfl, -⟩ := LineForm.parameter.inj (Option.some.inj h)
  obtain ⟨naming, value, hnaming, hvalue, hrest⟩ := of_blank_modified? hmodified
  obtain ⟨hmem, -, behind, rfl, hend, rfl⟩ := of_keyword? hkeyword
  obtain ⟨hsplit, hgap, -⟩ := Text.exists_run Text.isBlank behind
  have hbehind : behind = behind.takeWhile Text.isBlank ++ Text.trimLeft behind := hsplit
  rw [hrest, ← List.append_assoc] at hbehind
  rw [hbehind] at hend
  refine ⟨keyword', _, naming, value, hmem, hgap, hend.left, hnaming, hvalue, ?_⟩
  rw [← List.append_assoc (behind.takeWhile Text.isBlank), ← hbehind]

end

/-! ## Lines -/

/-- The line of a form has the ink of the code, if the value is not blank. -/
theorem ink_layout (columns : Columns) (indent : Nat) (inParameters : Bool) {code : Text}
    {form : LineForm} (h : ofCode? code = some form) (hvalue : ¬ HasBlankValue code) :
    ink (form.layout columns indent inParameters) = ink code := by
  rw [ink_of_ofCode? h]
  obtain ⟨hsafe, hport | ⟨-, hsignal | ⟨-, hparameter | ⟨-, hassign | ⟨-, hconnection⟩⟩⟩⟩⟩ :=
    of_ofCode? h
  · obtain ⟨_, _, _, _, _, _, rfl, hport, -⟩ := of_port? hport
    exact ink_layout_port columns indent inParameters hport.vector.range
  · obtain ⟨_, _, _, _, _, _, rfl, hsignal, -⟩ := of_signal? hsignal hsafe
    exact ink_layout_signal columns indent inParameters hsignal
  · obtain ⟨⟨keyword, rest⟩, -, hread⟩ := Option.bind_eq_some_iff.1 hparameter
    obtain ⟨⟨modifiers, name, value, terminator⟩, hmodified, heq⟩ :=
      Option.bind_eq_some_iff.1 hread
    obtain rfl := Option.some.inj heq
    refine ink_layout_parameter columns indent inParameters
      (of_modified? columns hmodified).1 ?_
    rintro rfl
    exact hvalue (of_blank_parameter? hparameter)
  · obtain ⟨target, body, rfl, -⟩ := of_assign? hassign
    exact ink_layout_assign columns indent inParameters _ _
  · obtain ⟨name, gap, value, behind, rfl, -⟩ := of_connection? hconnection
    exact ink_layout_connection columns indent inParameters _ _ _

end LineForm

namespace Text

variable {width : Nat}

/-- Tabs are no ink, nor are the spaces in their place. -/
theorem ink_expandTabs (hwidth : 0 < width) (s : Text) : ink (expandTabs width s) = ink s := by
  suffices h : ∀ column, ink (expandTabs.go width column s) = ink s from h 0
  induction s with
  | nil => exact fun _ => rfl
  | cons c s ih =>
      intro column
      obtain ⟨t, column', heq, ht⟩ := expandTabs_cons hwidth column c
      rw [heq, ink_append, ih]
      rcases ht with ⟨rfl, n, rfl⟩ | ⟨-, rfl⟩
      · rw [ink_spaces]
        rfl
      · exact (ink_append [c] s).symm

end Text

namespace CodeLine

/-- A line without its tabs, its comment and the blanks around its code. -/
def codeOf (line : Text) : Text :=
  Text.trim (Text.before "//" (Text.expandTabs indentWidth line))

variable {line : Text} {parts : CodeLine}

/-- The code of a line that is taken apart is the line's code. -/
theorem code_eq (h : ofLine? line = some parts) : parts.code = codeOf line := by
  obtain ⟨front, back, hfront, hback, heq⟩ := holds_of_ofLine? h
  obtain ⟨_, _, _, -, -, -, -, -, hcode, -⟩ := of_ofLine? h
  have hbefore := Text.before_expandTabs (show 0 < indentWidth by decide) (a := '/') (b := '/')
    rfl rfl line
  rw [codeOf]
  refine (congrArg Text.trim (hbefore.trans heq)).symm ▸ ?_
  exact (Text.trim_append hfront hcode.tight hback).symm

/-- The ink of a line is that of its code and its comment. -/
theorem ink_of_ofLine? (h : ofLine? line = some parts) :
    ink line = ink parts.code ++ ink parts.comment := by
  obtain ⟨front, gap, back, hfront, hgap, hback, heq, -⟩ := of_ofLine? h
  rw [← Text.ink_expandTabs (show 0 < indentWidth by decide), heq]
  simp only [ink_append, Text.ink_eq_nil hfront, Text.ink_eq_nil hgap, Text.ink_eq_nil hback,
    List.append_nil, List.nil_append]

end CodeLine

open CodeLine

/-- An aligned line has the ink of the line, if it declares no parameter with a blank value. -/
theorem ink_alignLine (columns : Columns) (inParameters : Bool) {line : Text}
    (h : ¬ LineForm.HasBlankValue (codeOf line)) :
    ink (alignLine columns inParameters line) = ink line := by
  cases hparts : ofLine? line with
  | none =>
      rw [alignLine, hparts]
      rfl
  | some parts =>
      rw [← code_eq hparts] at h
      cases hform : LineForm.ofCode? parts.code with
      | none =>
          rw [alignLine, hparts, Option.bind_some, aligned?, hform]
          rfl
      | some form =>
          have hlayout := LineForm.ink_layout columns parts.indent inParameters hform h
          rw [alignLine, hparts, Option.bind_some, aligned?, hform, ink_of_ofLine? hparts]
          show ink (if parts.comment.isEmpty then _ else _) = _
          split
          · next hempty => rw [hlayout, List.isEmpty_iff.1 hempty, ink_nil, List.append_nil]
          · rw [ink_append, ink_append, hlayout, Text.ink_space, List.append_nil,
              Text.ink_trimRight]

/-- Each aligned line has the ink of its line, if it is none of the exceptions. -/
theorem ink_alignLines (columns : Columns) (lines : List Text) (state : BlockState)
    (h : ∀ before line, (before, line) ∈ (state.along lines).zip lines →
      before.keeps line = false → ¬ LineForm.HasBlankValue (codeOf line)) :
    (alignLines columns state lines).map ink = lines.map ink := by
  induction lines generalizing state with
  | nil => rfl
  | cons line lines ih =>
      have hline := h state line List.mem_cons_self
      have hlines := ih (state.next line) fun before other hmem =>
        h before other (List.mem_cons_of_mem _ hmem)
      rw [alignLines, List.map_cons, List.map_cons, hlines]
      refine congrArg (· :: lines.map ink) ?_
      split
      · rfl
      · next hkeeps => exact ink_alignLine columns _ (hline (Bool.eq_false_iff.2 hkeeps))

/-- Line by line an aligned text has the ink of the text, if no line outside of a block comment
declares a parameter with a blank value. -/
theorem ink_alignText (columns : Columns) (text : Text)
    (h : ∀ state line, (state, line) ∈
      (BlockState.along {} (List.splitOn (.char '\n') text)).zip (List.splitOn (.char '\n') text) →
        state.keeps line = false → ¬ LineForm.HasBlankValue (codeOf line)) :
    (List.splitOn (.char '\n') (alignText columns text)).map ink =
      (List.splitOn (.char '\n') text).map ink := by
  rw [splitOn_alignText, ink_alignLines columns _ {} h]

/-- A code with a blank value ends in an equals sign and a semicolon. -/
theorem LineForm.HasBlankValue.getLast?_eq {code : Text} (h : HasBlankValue code) :
    (List.dropLast (ink code)).getLast? = some (.char '=') := by
  obtain ⟨keyword, gap, naming, value, -, -, -, -, hvalue, rfl⟩ := h
  have hequals : ∀ s, ink (.char '=' :: s) = .char '=' :: ink s := Text.ink_cons rfl
  have hend : ink [.char ';'] = [.char ';'] := rfl
  simp only [ink_append, hequals, Text.ink_eq_nil hvalue, hend, List.nil_append]
  rw [← List.append_assoc, ← List.append_assoc]
  simp

/-- A parameter and a port whose blanks are moved. -/
theorem ink_alignText_width :
    (List.splitOn (.char '\n')
      (alignText Columns.standard "parameter W=8; // width\ninput[W-1:0]a,")).map
        ink = (["parameterW=8;//width", "input[W-1:0]a,"] : List Text) := by
  have hlines : ∀ line ∈ List.splitOn (.char '\n') "parameter W=8; // width\ninput[W-1:0]a,",
      (List.dropLast (ink (codeOf line))).getLast? ≠ some (.char '=') := by
    decide +kernel
  exact (ink_alignText Columns.standard _ fun state line hmem _ hblank =>
    hlines line (List.of_mem_zip hmem).2 hblank.getLast?_eq).trans rfl

end VerilogLayout

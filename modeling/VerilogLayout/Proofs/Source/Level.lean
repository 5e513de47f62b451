import VerilogLayout.Proofs.Source.Ink
import VerilogLayout.Proofs.Source.Place

/-!
# Lines of a level

A renderer of trees indents a line by its level and lays it out from there, `LineForm.atLevel`. The
line aligner measures the same indentation in columns. Both come to the same line,
`layout_eq_atLevel`, so the aligner leaves the line alone: `alignLine?_atLevel`.
-/

namespace VerilogLayout

open Text (Stops AllBlank)

/-! ## Lines that are left alone -/

open LineForm CodeLine in
/-- A line is left alone if its code is laid out as it stands, and if it has no form when it is cut
at two slashes inside of its code. -/
theorem alignLine?_of_again {columns : Columns} {inParameters : Bool} {start : Nat} {code : Text}
    (htight : code.IsTight) (hne : code ≠ []) (hflat : IsFlat code)
    (hcut : Text.includes code "//" →
      ∀ form, ofCode? (Text.trimRight (Text.before "//" code)) ≠ some form)
    (hagain : ∀ form, ofCode? code = some form →
      form.layout columns start inParameters = Text.spaces start ++ code) :
    alignLine? columns inParameters (Text.spaces start ++ code) =
      .ok (Text.spaces start ++ code) := by
  have htrim : Text.trim (Text.spaces start ++ code) = code := by
    have hfound := Text.trim_append (Text.allBlank_spaces start) htight Text.allBlank_nil
    rwa [List.append_nil] at hfound
  have hnewline : (Text.trim (Text.spaces start ++ code)).contains '\n' = false := by
    rw [htrim, Bool.eq_false_iff]
    exact fun hmem => (hflat _ (List.contains_iff_mem.1 hmem)).2 rfl
  have hexpand : Text.expandTabs indentWidth (Text.spaces start ++ code) =
      Text.spaces start ++ code :=
    Text.expandTabs_eq_self (by decide) fun hmem =>
      (isFlat_append (IsField.spaces start).flat hflat _ hmem).1 rfl
  rw [alignLine?, hnewline, Bool.and_false, if_neg Bool.false_ne_true]
  refine congrArg Except.ok ?_
  -- A line that is passed over is written as it is; so is one with slashes, whose code is no form.
  -- What is left is read as its own code.
  cases hparts : ofLine? (Text.spaces start ++ code) with
  | none =>
      rw [alignLine, hparts]
      rfl
  | some parts =>
      obtain ⟨hpass, hread⟩ := ofLine?_eq_some.1 hparts
      unfold partsOf at hread
      dsimp only at hread
      rw [hexpand, htrim] at hpass hread
      by_cases hslashes : Text.includes code "//"
      · have hnone : ofCode? parts.code = none := by
          rw [← hread]
          exact Option.eq_none_iff_forall_ne_some.2 (hcut hslashes)
        rw [alignLine, hparts, Option.bind_some, aligned?, hnone]
        rfl
      · have hwritten : written start code [] = Text.spaces start ++ code :=
          congrArg (Text.spaces start ++ ·) (List.append_nil code)
        simp only [passesOver, Bool.or_eq_false_iff] at hpass
        have hplain : IsCode code := ⟨htight, Watch.comment_along_eq_false.2
          ⟨Bool.eq_false_iff.2 hslashes, hpass.1.2⟩⟩
        have htab : .char '\t' ∉ code := fun hmem => (hflat _ hmem).1 rfl
        rw [← hwritten] at hparts
        obtain rfl := of_ofLine?_written hplain ⟨.inl rfl, Text.stops_nil⟩ hne htab
          List.not_mem_nil hparts
        rw [← hwritten, alignLine, hparts, Option.bind_some, aligned?]
        dsimp only
        cases hform : ofCode? code with
        | none => rfl
        | some form => exact (hagain form hform).trans hwritten.symm

/-! ## Lines of a level -/

namespace Line

/-- Two lines are written side by side, the second one with `front` before it. -/
structure Behind (front : Text) (line line' : Line) : Prop where
  text_eq : line'.text = front ++ line.text
  column_eq : line'.column = line.column
  ne_nil : line.text ≠ []

namespace Behind

variable {front : Text} {line line' : Line}

theorem append (h : Behind front line line') (text : Text) :
    Behind front (line.append text) (line'.append text) := by
  refine ⟨?_, ?_, List.append_ne_nil_of_left_ne_nil h.ne_nil text⟩
  · show line'.text ++ text = front ++ (line.text ++ text)
    rw [h.text_eq, List.append_assoc]
  · rw [column_append, column_append, h.column_eq]

/-- A field is placed at the same column in both lines. -/
theorem place (h : Behind front line line') (field : Text) (target gap : Int) :
    Behind front (line.place field target gap) (line'.place field target gap) := by
  have hne : line'.text ≠ [] := by
    rw [h.text_eq]
    exact List.append_ne_nil_of_right_ne_nil front h.ne_nil
  have hempty : ∀ {s : Text}, s ≠ [] → ¬ s.isEmpty := fun hs hs' => hs (List.isEmpty_iff.1 hs')
  unfold Line.place
  split
  · exact h
  · dsimp only
    rw [if_neg (hempty h.ne_nil), if_neg (hempty hne), h.column_eq]
    exact h.append _

/-- A word is appended behind a front as without it. -/
theorem appendWord (h : Behind front line line') (word : Text) :
    Behind front (Layout.appendWord line word) (Layout.appendWord line' word) := by
  unfold Layout.appendWord
  split
  · exact h
  · exact h.append _

/-- A terminator is placed behind a front as without it. -/
theorem placeTerminator (h : Behind front line line') (terminator : Text) (column : Int) :
    Behind front (Layout.placeTerminator line terminator column)
      (Layout.placeTerminator line' terminator column) := by
  unfold Layout.placeTerminator
  split
  · exact h.place _ _ _
  · exact h.append _

end Behind

/-- From the natural level on a shift is a number of levels. -/
theorem columnShift_eq (level natural : Nat) :
    columnShift level natural = (level - natural) * indentWidth :=
  congrArg (· * indentWidth) (by omega)

/-- Placing a field leaves the start of the line. -/
theorem start_place (line : Line) (field : Text) (target gap : Int) :
    (place line field target gap).start = line.start := by
  unfold place
  split <;> rfl

/-- The first field of a line has nothing but spaces in front. -/
theorem text_place_start {start : Int} {field : Text} (h : field ≠ []) (target : Int) :
    (place { start } field target).text = Text.spaces (pad start target) ++ field := by
  rw [place, if_neg fun hempty => h (List.isEmpty_iff.1 hempty)]
  simp only [Line.append, Line.column, List.isEmpty_nil, if_true, List.nil_append]
  rw [List.length_nil, Nat.zero_max, Int.natCast_zero, Int.add_zero]

/-- A first field stands at the same column behind the indentation of a level. -/
theorem behind_indentFor {level column : Nat} (hlevel : 1 ≤ level) (hcolumn : indentWidth ≤ column)
    {field : Text} (hfield : field ≠ []) :
    Behind (indentFor level)
      (place { start := level * indentWidth } field (column + columnShift level))
      (place {} field (column + columnShift level)) := by
  have hshift : columnShift level = (level - 1) * indentWidth := columnShift_eq level 1
  have hgap : pad (level * indentWidth) (column + columnShift level) = column - indentWidth := by
    rw [hshift, pad]
    unfold indentWidth at hcolumn ⊢
    omega
  have hstart : pad 0 (column + columnShift level) = column + columnShift level := by
    unfold pad
    omega
  have hindent : indentFor level = Text.spaces (indentWidth * level) := rfl
  have htext : (place {} field (column + columnShift level)).text =
      indentFor level ++ (place { start := level * indentWidth } field
        (column + columnShift level)).text := by
    rw [text_place_start hfield, text_place_start hfield, hgap, hstart, hindent,
      ← List.append_assoc, Text.spaces, Text.spaces, Text.spaces, List.replicate_append_replicate]
    refine congrArg (Text.spaces · ++ field) ?_
    rw [hshift]
    unfold indentWidth at hcolumn ⊢
    omega
  refine ⟨htext, ?_, ?_⟩
  · unfold Line.column
    rw [htext, start_place, start_place, List.length_append, hindent, Text.spaces,
      List.length_replicate]
    push_cast
    rw [Int.mul_comm, Int.zero_add]
  · rw [text_place_start hfield]
    exact List.append_ne_nil_of_right_ne_nil _ hfield

end Line

namespace LineForm

open Scan Line Place

/-- The level at which a form stands that is not nested deeper. -/
def naturalLevel : LineForm → Nat
  | .connection .. => 2
  | _ => 1

/-- The column at which a form starts at its natural level. -/
def startColumn (columns : Columns) : LineForm → Nat
  | .port .. => columns .portKeyword
  | .signal .. => columns .signalKeyword
  | .parameter .. => columns .parameterKeyword
  | .assign .. => columns .assignKeyword
  | .connection .. => connectionIndent

/-- The line that a renderer of trees writes for the fields of a form: the indentation of the
level, and the layout from there on. -/
def atLevel (columns : Columns) (level : Nat) (inParameters : Bool) : LineForm → Text
  | .port keyword net signing range names terminator =>
      indentFor level ++ Layout.port columns
        { keyword, signing, range, terminator
          modifiers := net
          names := List.intercalate ", " names }
        (level * indentWidth) (columnShift level)
  | .signal keyword signing range names dimensions value =>
      indentFor level ++ Layout.signal columns
        { keyword, signing, range
          names := writtenNames names value
          dimensions := dimensions.flatten
          terminator := ";" }
        (level * indentWidth) (columnShift level)
  | .parameter keyword modifiers name value terminator =>
      indentFor level ++ Layout.parameter columns
        { keyword, name, value, terminator
          modifiers := List.intercalate " " modifiers }
        (level * indentWidth) (columnShift level)
  | .assign target value =>
      indentFor level ++ Layout.assign columns [(target, value)] ";" (level * indentWidth)
        (columnShift level)
  | .connection name value terminator =>
      let column := if inParameters then columns .parameterValue else columns .portValue
      indentFor level ++ Layout.connection name value (column + columnShift level 2) terminator
        (level * indentWidth)

end LineForm

/-- The first columns hold the indentation of a level, and an array starts where a signal does. -/
structure Columns.HoldLevel (columns : Columns) : Prop where
  port : indentWidth ≤ columns .portKeyword
  signal : indentWidth ≤ columns .signalKeyword
  parameter : indentWidth ≤ columns .parameterKeyword
  assign : indentWidth ≤ columns .assignKeyword
  array : columns .arrayKeyword = columns .signalKeyword

/-- Columns that hold a level start every form a level in. -/
theorem Columns.HoldLevel.startColumn {columns : Columns} (h : columns.HoldLevel)
    (form : LineForm) :
    indentWidth ≤ form.startColumn columns := by
  cases form with
  | port => exact h.port
  | signal => exact h.signal
  | parameter => exact h.parameter
  | assign => exact h.assign
  | connection => exact Nat.le_mul_of_pos_left indentWidth (by decide)

namespace LineForm

open Scan Line Place

/-- The ranges of a form are in their normal form. -/
def IsNormal (columns : Columns) : LineForm → Prop
  | .port _ _ _ range _ _ => writtenRange columns range = range
  | .signal _ _ range _ dimensions _ =>
      writtenRange columns range = range ∧ ∀ d ∈ dimensions, Range.normalise columns d = d
  | .parameter _ modifiers _ _ _ => ∀ m ∈ modifiers, writtenModifier columns m = m
  | .assign .. => True
  | .connection .. => True

/-- The indentation of a nested form gives its shift. -/
theorem shiftFor_columnShift (column level natural : Nat) :
    shiftFor (column + columnShift level natural) column = columnShift level natural := by
  rw [columnShift_eq, shiftFor, Nat.add_sub_cancel_left, Nat.mul_div_cancel _ (by decide)]

theorem map_eq_self {f : Text → Text} {l : List Text} (h : ∀ s ∈ l, f s = s) : l.map f = l := by
  rw [List.map_congr_left h, List.map_id']

/-- Measured in columns and measured in levels a form has the same line. -/
theorem layout_eq_atLevel {columns : Columns} {form : LineForm} {level : Nat}
    (hcolumn : indentWidth ≤ form.startColumn columns)
    (harray : columns .arrayKeyword = columns .signalKeyword) (hlevel : form.naturalLevel ≤ level)
    (hnormal : form.IsNormal columns) (inParameters : Bool)
    (hkeyword : ∀ keyword, form.fields.head? = some keyword → keyword ≠ []) :
    form.layout columns (form.startColumn columns + columnShift level form.naturalLevel)
      inParameters = form.atLevel columns level inParameters := by
  -- Both sides place the same fields at the same columns; they differ only in how the indentation
  -- in front of them is written.
  cases form with
  | port keyword net signing range names terminator =>
      have hstart := behind_indentFor hlevel hcolumn (hkeyword _ rfl)
      rw [layout, atLevel]
      dsimp only [startColumn, naturalLevel]
      rw [shiftFor_columnShift, hnormal, writtenNames_eq, initialText, List.append_nil]
      exact ((((((hstart.appendWord _).place _ _ _).place _ _ _).place _ _ _).placeTerminator
        _ _)).text_eq
  | signal keyword signing range names dimensions value =>
      have hstart := behind_indentFor hlevel hcolumn (hkeyword _ rfl)
      obtain ⟨hrange, hdimensions⟩ := hnormal
      rw [layout, atLevel]
      dsimp only [startColumn, naturalLevel]
      rw [shiftFor_columnShift, hrange, map_eq_self hdimensions, Layout.signal, Layout.signal]
      split
      · exact ((((((hstart.appendWord _).place _ _ _).place _ _ _).place _ _ _).placeTerminator
          _ _)).text_eq
      · rw [Layout.array, Layout.array, harray]
        exact ((((((hstart.appendWord _).place _ _ _).place _ _ _).place _ _ _).place _ _
          _).placeTerminator _ _).text_eq
  | parameter keyword modifiers name value terminator =>
      have hstart := behind_indentFor hlevel hcolumn (hkeyword _ rfl)
      rw [layout, atLevel]
      dsimp only [startColumn, naturalLevel]
      rw [shiftFor_columnShift, map_eq_self hnormal, Layout.parameter, Layout.parameter]
      dsimp only
      have hname := (hstart.appendWord (List.intercalate " " modifiers)).place name
        (columns .parameterName + columnShift level) 1
      split
      · exact (hname.placeTerminator _ _).text_eq
      · exact (((hname.place _ _ _).append _).placeTerminator _ _).text_eq
  | assign target value =>
      have hstart := behind_indentFor hlevel hcolumn (hkeyword _ rfl)
      rw [layout, atLevel]
      dsimp only [startColumn, naturalLevel]
      rw [shiftFor_columnShift, Layout.assign, Layout.assign]
      exact ((((hstart.place _ _ _).place _ _ _).append _).append _).text_eq
  | connection name value terminator =>
      rw [layout, atLevel]
      dsimp only [startColumn, naturalLevel]
      have hstart : connectionIndent + columnShift level (2 : Nat) = indentWidth * level := by
        have hlevel' : 2 ≤ level := hlevel
        rw [columnShift_eq]
        unfold connectionIndent indentWidth
        omega
      rw [shiftFor_columnShift, hstart, Int.natCast_mul, Int.mul_comm indentWidth]
      rfl

/-! ## Fields that are read back -/

/-- A value on the right of an equals sign, or in parentheses. -/
structure IsRightSide (s : Text) : Prop extends IsValue s where
  no_slashes : Text.includes s "//" = false
  flat : IsFlat s

/-- A flat text without a slash. -/
def IsBare (s : Text) : Prop :=
  ∀ c ∈ s, c ≠ '\t' ∧ c ≠ '\n' ∧ c ≠ '/'

instance (s : Text) : Decidable (IsBare s) :=
  inferInstanceAs (Decidable (∀ c ∈ s, c ≠ '\t' ∧ c ≠ '\n' ∧ c ≠ '/'))

namespace IsBare

variable {s t : Text}

theorem flat (h : IsBare s) : IsFlat s :=
  fun c hc => ⟨(h c hc).1, (h c hc).2.1⟩

theorem not_mem (h : IsBare s) : .char '/' ∉ s :=
  fun hmem => (h _ hmem).2.2 rfl

theorem append (hs : IsBare s) (ht : IsBare t) : IsBare (s ++ t) :=
  List.forall_mem_append.2 ⟨hs, ht⟩

/-- Spaces are bare. -/
theorem spaces (n : Nat) : IsBare (Text.spaces n) := by
  intro c hc
  rw [List.eq_of_mem_replicate hc]
  decide

/-- A bare text may have spaces in front. -/
theorem gapped (h : IsBare s) (n : Nat) : IsBare (gapped n s) :=
  forall_mem_gapped (by decide) h n

/-- The characters of names are bare. -/
theorem of_isNamePart (h : ∀ c ∈ s, isNamePart c) : IsBare s := by
  have hbreak : ∀ d ∈ [.char '\t', .char '\n', .char '/'], isNamePart d = false := by decide
  intro c hc
  have hne : ∀ d ∈ [.char '\t', .char '\n', .char '/'], c ≠ d := by
    rintro d hd rfl
    exact Bool.eq_false_iff.1 (hbreak c hd) (h c hc)
  exact ⟨hne _ (by decide), hne _ (by decide), hne _ (by decide)⟩

/-- What ends a declaration is bare. -/
theorem of_isTerminator (h : IsTerminator s) : IsBare s := by
  rcases h with rfl | rfl | rfl <;> decide

end IsBare

/-- No comment starts in a value or in what stands around it. -/
theorem IsRightSide.between {front value back : Text} (h : IsRightSide value)
    (hfront : IsBare front) (hback : IsBare back) :
    IsFlat (front ++ (value ++ back)) ∧ Text.includes (front ++ (value ++ back)) "//" = false := by
  have hslash : ∀ {s : Text}, IsBare s → Text.includes s "//" = false :=
    fun hs => Text.includes_of_not_mem (a := '/') (b := '/') hs.not_mem
  have hlast : front.getLast? ≠ some (.char '/') :=
    fun hlast => hfront.not_mem (List.mem_of_getLast? hlast)
  have hhead : back.head? ≠ some (.char '/') := fun hhead => hback.not_mem (List.mem_of_head? hhead)
  have hvalue : Text.includes (value ++ back) "//" = false :=
    (Text.includes_append (a := '/') (b := '/') (.inr hhead)).trans
      (Bool.or_eq_false_iff.2 ⟨h.no_slashes, hslash hback⟩)
  refine ⟨isFlat_append hfront.flat (isFlat_append h.flat hback.flat), ?_⟩
  exact (Text.includes_append (a := '/') (b := '/') (.inl hlast)).trans
    (Bool.or_eq_false_iff.2 ⟨hslash hfront, hvalue⟩)

/-- The fields of a form are of the shapes that a line is taken apart into, and have no tab and no
line feed. -/
def HasShape : LineForm → Prop
  | .port keyword net signing range names terminator =>
      IsPort keyword net signing range names terminator ∧ IsFlat range
  | .signal keyword signing range names dimensions value =>
      IsSignal keyword signing range names dimensions value ∧ IsFlat range ∧
        (∀ d ∈ dimensions, IsFlat d) ∧ ∀ text ∈ value, IsRightSide text
  | .parameter keyword modifiers name value terminator =>
      IsNamed keyword modifiers name ∧ (∀ m ∈ modifiers, IsFlat m) ∧ IsRightSide value ∧
        IsTerminator terminator ∧ value.getLast? ≠ some (.char ',')
  | .assign target value =>
      target.IsTight ∧ IsTarget target ∧ IsFlat target ∧ IsRightSide value
  | .connection name value terminator =>
      IsName name ∧ IsRightSide value ∧ (terminator = [] ∨ terminator = [.char ','])

/-- The line of a form is its code at the column `start`, and the code is read as that form or as
none, also when it is cut at two slashes. -/
structure Stands (columns : Columns) (inParameters : Bool) (start : Nat) (form : LineForm)
    (code : Text) : Prop where
  line_eq : form.layout columns start inParameters = Text.spaces start ++ code
  tight : code.IsTight
  ne_nil : code ≠ []
  flat : IsFlat code
  cut : Text.includes code "//" →
    ∀ other, ofCode? (Text.trimRight (Text.before "//" code)) ≠ some other
  read : ∀ other, ofCode? code = some other → other = form

section
variable (columns : Columns) (inParameters : Bool) (level : Nat)

/-- The line that is laid out for a port stands where its level puts it. -/
theorem exists_stands_port {keyword net signing range terminator : Text} {names : List Text}
    (h : IsPort keyword net signing range names terminator) (hflat : IsFlat range)
    (hnormal : writtenRange columns range = range) :
    ∃ code, Stands columns inParameters (columns .portKeyword + columnShift level (1 : Nat))
      (.port keyword net signing range names terminator) code := by
  have hword := isKeyword_of_mem_directions keyword h.keyword
  have hmem : keyword ∈ declarationKeywords :=
    List.mem_append_left _ (List.mem_append_left _ h.keyword)
  obtain ⟨a, b, c, d, n, ⟨ha, hb, hc, hd⟩, hline⟩ := exists_layout_port columns inParameters
    (columns .portKeyword + columnShift level (1 : Nat)) h
  rw [shiftFor_columnShift, hnormal] at hline
  have hnet : IsField net := .of_optional h.net fun word hword =>
    isKeyword_of_mem_signalKeywords word (List.mem_append_left _ hword)
  have hsigning : IsField signing := .of_optional h.vector.signing isKeyword_of_mem_signings
  have hfield := (IsField.of_isKeyword hword).append ((hnet.gapped a).append
    ((hsigning.gapped b).append (((IsField.of_isOptional h.vector.range hflat).gapped c).append
      ((IsField.spaces d).append ((IsField.names h.vector.isName).append
        ((IsField.of_isTerminator h.terminator).gapped n))))))
  have hstops := stops_gapped (p := Text.isWord) rfl ha net (stops_gapped rfl hb signing
    (stops_gapped rfl hc range (stops_spaces rfl hd (List.intercalate ", " names ++
      gapped n terminator))))
  refine ⟨_, hline, isTight_port h a b c d n, List.append_ne_nil_of_left_ne_nil hword.1 _,
    hfield.flat, fun hslashes => ?_, fun other hother => eq_port_of_ofCode? h ha hb hc hd hother⟩
  refine ofCode?_cut_ne hmem hstops ?_
  have hover := along_before (t := []) hfield.shields rfl
  rw [List.append_nil] at hover
  exact hover hslashes

/-- The line that is laid out for a signal stands where its level puts it, if arrays start at the
column of the other signals. -/
theorem exists_stands_signal (harray : columns .arrayKeyword = columns .signalKeyword)
    {keyword signing range : Text} {names dimensions : List Text} {value : Option Text}
    (h : IsSignal keyword signing range names dimensions value) (hflat : IsFlat range)
    (hflats : ∀ d ∈ dimensions, IsFlat d) (hvalue : ∀ text ∈ value, IsRightSide text)
    (hnormal : writtenRange columns range = range)
    (hnormals : ∀ d ∈ dimensions, Range.normalise columns d = d) :
    ∃ code, Stands columns inParameters (columns .signalKeyword + columnShift level (1 : Nat))
      (.signal keyword signing range names dimensions value) code := by
  have hword := isKeyword_of_mem_signalKeywords keyword h.keyword
  have hmem : keyword ∈ declarationKeywords :=
    List.mem_append_left _ (List.mem_append_right _ h.keyword)
  obtain ⟨b, c, d, e, n, ⟨hb, hc, hd, he⟩, hline⟩ := exists_layout_signal columns inParameters
    (columns .signalKeyword + columnShift level (1 : Nat)) h
  rw [shiftFor_columnShift, hnormal, map_eq_self hnormals, firstColumn, harray, ite_self] at hline
  have hsigning : IsField signing := .of_optional h.vector.signing isKeyword_of_mem_signings
  have hdimensions : IsField dimensions.flatten :=
    .flatten fun dimension hmem => .of_isRange (h.isRange dimension hmem) (hflats dimension hmem)
  have hsemicolon : IsBare (gapped n [.char ';']) := .gapped (by decide) n
  have hequals : IsBare [.char ' ', .char '=', .char ' '] := by decide
  have hend : IsFlat (initialText value ++ gapped n [.char ';']) ∧
      Text.includes (initialText value ++ gapped n [.char ';']) "//" = false := by
    cases value with
    | none => exact ⟨hsemicolon.flat, Text.includes_of_not_mem hsemicolon.not_mem⟩
    | some text => exact (hvalue text rfl).between hequals hsemicolon
  obtain ⟨hend, hslash⟩ := hend
  have hfield := (IsField.of_isKeyword hword).append ((hsigning.gapped b).append
    (((IsField.of_isOptional h.vector.range hflat).gapped c).append
      ((IsField.spaces d).append ((IsField.names h.vector.isName).append
        (hdimensions.gapped e)))))
  have hstops := stops_gapped (p := Text.isWord) rfl hb signing (stops_gapped rfl hc range
    (stops_spaces rfl hd (List.intercalate ", " names ++ (gapped e dimensions.flatten ++
      (initialText value ++ gapped n [.char ';'])))))
  have hcode := isFlat_append hfield.flat hend
  have hover := along_before hfield.shields hslash
  simp only [List.append_assoc] at hcode hover
  exact ⟨_, hline, isTight_signal h b c d e n, List.append_ne_nil_of_left_ne_nil hword.1 _, hcode,
    fun hslashes => ofCode?_cut_ne hmem hstops (hover hslashes),
    fun other hother => eq_signal_of_ofCode? h hb hc hd he hother⟩

/-- The line that is laid out for a parameter stands where its level puts it. -/
theorem exists_stands_parameter {keyword name value terminator : Text} {modifiers : List Text}
    (h : IsNamed keyword modifiers name) (hflat : ∀ m ∈ modifiers, IsFlat m)
    (hvalue : IsRightSide value) (hterminator : IsTerminator terminator)
    (hlast : value.getLast? ≠ some (.char ','))
    (hnormal : ∀ m ∈ modifiers, writtenModifier columns m = m) :
    ∃ code, Stands columns inParameters (columns .parameterKeyword + columnShift level (1 : Nat))
      (.parameter keyword modifiers name value terminator) code := by
  have hword := isKeyword_of_mem_parameterKeywords keyword h.keyword
  have hmem : keyword ∈ declarationKeywords := List.mem_append_right _ h.keyword
  have hmodifiers : IsField (spacedModifiers modifiers) :=
    .modifiers fun m hm => .of_isModifier (h.isModifier m hm) (hflat m hm)
  have hfront : ∀ b, IsField (keyword ++ (spacedModifiers modifiers ++ (Text.spaces b ++ name))) :=
    fun b => (IsField.of_isKeyword hword).append
      (hmodifiers.append ((IsField.spaces b).append (.of_isNamePart h.isName.forall_mem)))
  -- Only a value has characters that are not shielded, so both lines are cut in the same way.
  have hcut : ∀ {b : Nat} {back : Text}, 0 < b → Text.includes back "//" = false →
      Text.includes (keyword ++ (spacedModifiers modifiers ++ (Text.spaces b ++ (name ++ back))))
        "//" → ∀ other, ofCode? (Text.trimRight (Text.before "//" (keyword ++
          (spacedModifiers modifiers ++ (Text.spaces b ++ (name ++ back)))))) ≠ some other := by
    intro b back hb hback hslashes
    have hover := along_before (hfront b).shields hback
    simp only [List.append_assoc] at hover
    exact ofCode?_cut_ne hmem (stops_spacedModifiers rfl modifiers hb _) (hover hslashes)
  have hend : ∀ n, IsBare (gapped n terminator) :=
    fun n => (IsBare.of_isTerminator hterminator).gapped n
  by_cases hnil : value = []
  · subst hnil
    obtain ⟨b, n, hb, hline⟩ := @exists_layout_blank _ _ terminator _ columns inParameters
      (columns .parameterKeyword + columnShift level (1 : Nat)) h
    rw [shiftFor_columnShift, map_eq_self hnormal] at hline
    have hcode := isFlat_append (hfront b).flat (hend n).flat
    simp only [List.append_assoc] at hcode
    exact ⟨_, hline, isTight_blank h hterminator b n,
      List.append_ne_nil_of_left_ne_nil hword.1 _, hcode,
      hcut hb (Text.includes_of_not_mem (hend n).not_mem),
      fun other hother => absurd hother (ofCode?_blank_ne h hb hterminator n other)⟩
  · obtain ⟨b, c, n, ⟨hb, hc⟩, hline⟩ := @exists_layout_parameter _ _ _ terminator _ columns
      inParameters (columns .parameterKeyword + columnShift level (1 : Nat)) h hnil
    rw [shiftFor_columnShift, map_eq_self hnormal] at hline
    have hread : IsParameterValue value terminator := by
      refine ⟨hnil, hvalue.toIsValue, hterminator, fun _ htail => hlast ?_⟩
      obtain ⟨d, rest, rfl⟩ := List.exists_cons_of_ne_nil hnil
      rw [List.getLast?_cons, show rest.getLast? = some (.char ',') from htail]
      rfl
    have hequals : IsBare (Text.spaces c ++ [.char '=', .char ' ']) :=
      (IsBare.spaces c).append (by decide)
    obtain ⟨hflats, hslash⟩ := hvalue.between hequals (hend n)
    rw [List.append_assoc] at hflats hslash
    have hcode := isFlat_append (hfront b).flat hflats
    simp only [List.append_assoc] at hcode
    exact ⟨_, hline, isTight_parameter h hread b c n,
      List.append_ne_nil_of_left_ne_nil hword.1 _, hcode, hcut hb hslash,
      fun other hother => eq_parameter_of_ofCode? h hb hread hc hother⟩

/-- The line that is laid out for an assignment stands where its level puts it. -/
theorem exists_stands_assign {target value : Text} (htight : target.IsTight)
    (htarget : IsTarget target) (hflat : IsFlat target) (hvalue : IsRightSide value) :
    ∃ code, Stands columns inParameters (columns .assignKeyword + columnShift level (1 : Nat))
      (.assign target value) code := by
  obtain ⟨b, c, ⟨hb, hc⟩, hline⟩ := exists_layout_assign columns inParameters
    (columns .assignKeyword + columnShift level (1 : Nat)) target value
  rw [shiftFor_columnShift] at hline
  have hequals : IsBare (Text.spaces c ++ [.char '=', .char ' ']) :=
    (IsBare.spaces c).append (by decide)
  have hsemicolon : IsBare [.char ';'] := by decide
  obtain ⟨hflats, hslash⟩ := hvalue.between hequals hsemicolon
  rw [List.append_assoc] at hflats hslash
  have hstops := stops_gapped (p := Text.isWord) rfl hb target
    (stops_spaces rfl hc (.char '=' :: .char ' ' :: (value ++ [.char ';'])))
  have hspaces : IsFlat (gapped b target) := forall_mem_gapped (by decide) hflat b
  refine ⟨_, hline, isTight_assign target value b c,
    List.append_ne_nil_of_left_ne_nil isKeyword_assign.1 _,
    isFlat_append (IsField.of_isKeyword isKeyword_assign).flat (isFlat_append hspaces hflats),
    fun hslashes other hother => ?_,
    fun other hother => eq_assign_of_ofCode? htight htarget hvalue.toIsValue hb hc hother⟩
  -- The cut leaves the first word, but no equals sign.
  have hfirst := takeWhile_cut isKeyword_assign hstops
  rw [← List.append_assoc ("assign" : Text)] at hslashes hother hfirst
  obtain ⟨behind, hcut⟩ := Text.exists_cut (a := '/') (b := '/') hslash hslashes
  have hfront : .char '=' ∉ ("assign" : Text) ++ gapped b target := by
    have hgap : ∀ c ∈ gapped b target, c ≠ '=' :=
      forall_mem_gapped (p := (· ≠ .char '=')) (by decide)
        (fun c hc heq => htarget.no_equals (heq ▸ hc)) b
    exact fun hmem => (List.mem_append.1 hmem).elim (by decide) fun hmem => hgap _ hmem rfl
  have hnone : .char '=' ∉ Text.trimRight (Text.before "//" (("assign" : Text) ++ gapped b target ++
      (Text.spaces c ++ .char '=' :: .char ' ' :: (value ++ [.char ';'])))) := by
    obtain ⟨back, hsplit, -⟩ := Text.exists_trimRight (Text.before "//" (("assign" : Text) ++
      gapped b target ++ (Text.spaces c ++ .char '=' :: .char ' ' :: (value ++ [.char ';']))))
    refine fun hmem => hfront ?_
    rw [hcut]
    exact List.mem_append_left _ (hsplit ▸ List.mem_append_left back hmem)
  rcases (of_ofCode? hother).2 with hfound | ⟨-, hfound | ⟨-, hfound | ⟨-, hfound | ⟨-, hfound⟩⟩⟩⟩
  · rw [port?_eq_none (by rw [hfirst]; exact not_mem_assign.1)] at hfound
    cases hfound
  · rw [signal?_eq_none (by rw [hfirst]; exact not_mem_assign.2.1)] at hfound
    cases hfound
  · rw [parameter?_eq_none (by rw [hfirst]; exact not_mem_assign.2.2)] at hfound
    cases hfound
  · obtain ⟨before, body, -, -, -, hread⟩ := of_assign? hfound
    refine hnone (hread ▸ ?_)
    simp
  · rw [connection?_eq_none] at hfound
    · cases hfound
    · intro hhead
      obtain ⟨t, ht⟩ := List.head?_eq_some_iff.1 hhead
      rw [ht] at hfirst
      cases hfirst

/-- The line that is laid out for a connection stands where its level puts it. -/
theorem exists_stands_connection {name value terminator : Text} (hname : IsName name)
    (hvalue : IsRightSide value) (h : terminator = [] ∨ terminator = [.char ',']) :
    ∃ code, Stands columns inParameters (connectionIndent + columnShift level (2 : Nat))
      (.connection name value terminator) code := by
  obtain ⟨a, ha, hline⟩ := exists_layout_connection columns inParameters
    (connectionIndent + columnShift level (2 : Nat)) name value terminator
  rw [shiftFor_columnShift] at hline
  have hfront : IsBare (.char '.' :: (name ++ (Text.spaces a ++ [.char '(']))) :=
    List.forall_mem_cons.2 ⟨by decide, (IsBare.of_isNamePart hname.forall_mem).append
      ((IsBare.spaces a).append (by decide))⟩
  have hback : IsBare (.char ')' :: terminator) := by
    rcases h with rfl | rfl <;> decide
  obtain ⟨hflat, hslash⟩ := hvalue.between hfront hback
  simp only [List.cons_append, List.append_assoc] at hflat hslash
  exact ⟨_, hline, isTight_connection h name value a, List.cons_ne_nil _ _, hflat,
    fun hslashes => absurd hslashes (Bool.eq_false_iff.1 hslash),
    fun other hother => eq_connection_of_ofCode? hname hvalue.tight h ha hother⟩

end

/-- Every form starts with a word. -/
theorem keyword_ne_nil {form : LineForm} (h : form.HasShape) :
    ∀ keyword, form.fields.head? = some keyword → keyword ≠ [] := by
  intro keyword hkeyword
  cases form with
  | port =>
      cases hkeyword
      exact (isKeyword_of_mem_directions _ h.1.keyword).1
  | signal =>
      cases hkeyword
      exact (isKeyword_of_mem_signalKeywords _ h.1.keyword).1
  | parameter =>
      cases hkeyword
      exact (isKeyword_of_mem_parameterKeywords _ h.1.keyword).1
  | assign =>
      cases hkeyword
      exact isKeyword_assign.1
  | connection =>
      cases hkeyword
      exact List.cons_ne_nil _ _

section
variable {columns : Columns} {form : LineForm} {level : Nat}

/-- The line that is laid out for a form stands where its level puts it. -/
theorem exists_stands (harray : columns .arrayKeyword = columns .signalKeyword)
    (hnormal : form.IsNormal columns) (h : form.HasShape) (level : Nat) (inParameters : Bool) :
    ∃ code, Stands columns inParameters
      (form.startColumn columns + columnShift level form.naturalLevel) form code := by
  cases form with
  | port =>
      obtain ⟨hport, hflat⟩ := h
      exact exists_stands_port columns inParameters level hport hflat hnormal
  | signal =>
      obtain ⟨hsignal, hflat, hflats, hvalue⟩ := h
      exact exists_stands_signal columns inParameters level harray hsignal hflat hflats hvalue
        hnormal.1 hnormal.2
  | parameter =>
      obtain ⟨hnamed, hflat, hvalue, hterminator, hlast⟩ := h
      exact exists_stands_parameter columns inParameters level hnamed hflat hvalue hterminator
        hlast hnormal
  | assign =>
      obtain ⟨htight, htarget, hflat, hvalue⟩ := h
      exact exists_stands_assign columns inParameters level htight htarget hflat hvalue
  | connection =>
      obtain ⟨hname, hvalue, hterminator⟩ := h
      exact exists_stands_connection columns inParameters level hname hvalue hterminator

/-- Lines that a renderer of trees has laid out are left alone. -/
theorem alignLine?_atLevel (hcolumns : columns.HoldLevel) (hlevel : form.naturalLevel ≤ level)
    (hnormal : form.IsNormal columns) (hshape : form.HasShape) (inParameters : Bool) :
    alignLine? columns inParameters (form.atLevel columns level inParameters) =
      .ok (form.atLevel columns level inParameters) := by
  obtain ⟨code, hstands⟩ := exists_stands hcolumns.array hnormal hshape level inParameters
  rw [← layout_eq_atLevel (hcolumns.startColumn form) hcolumns.array hlevel hnormal inParameters
    (keyword_ne_nil hshape), hstands.line_eq]
  refine alignLine?_of_again hstands.tight hstands.ne_nil hstands.flat hstands.cut ?_
  intro other hother
  rw [hstands.read other hother, hstands.line_eq]

end

/-- The standard columns hold a level. -/
theorem holdLevel_standard : Columns.standard.HoldLevel :=
  ⟨by decide, by decide, by decide, by decide, rfl⟩

/-- Two ports of a list, nested one level deeper. -/
theorem alignLine?_atLevel_port :
    let form := LineForm.port "input" "wire" "signed" "[ 7:0 ]" ["data", "valid"] ","
    let line := form.atLevel Columns.standard 2 false
    form.naturalLevel ≤ 2 ∧ form.IsNormal Columns.standard ∧ form.HasShape ∧
      alignLine? Columns.standard false line = .ok line := by
  intro form line
  have hlevel : form.naturalLevel ≤ 2 := by decide
  have hwritten : writtenRange Columns.standard "[ 7:0 ]" = ("[ 7:0 ]" : Text) := by decide +kernel
  have hnormal : form.IsNormal Columns.standard := hwritten
  have hrange : Range.IsRange "[ 7:0 ]" := ⟨(" 7:0 " : Text), rfl, by decide⟩
  have hshape : form.HasShape :=
    ⟨⟨by decide, .inr (by decide), ⟨.inr (by decide), .inr hrange, List.cons_ne_nil _ _,
      by decide⟩, .inr (.inl rfl)⟩, by decide⟩
  exact ⟨hlevel, hnormal, hshape,
    alignLine?_atLevel holdLevel_standard hlevel hnormal hshape false⟩

/-- A tab inside of a target is expanded. -/
theorem alignLine?_atLevel_tab :
    let line := LineForm.atLevel Columns.standard 1 false (.assign "a\tb" "c")
    Columns.standard.HoldLevel ∧ Text.IsTight "a\tb" ∧ IsTarget "a\tb" ∧ IsRightSide "c" ∧
      alignLine? Columns.standard false line ≠ .ok line := by
  have htight : Text.IsTight "a\tb" := ⟨Text.stops_cons.2 rfl, Text.stops_cons.2 rfl⟩
  have hvalue : Text.IsTight "c" := ⟨Text.stops_cons.2 rfl, Text.stops_cons.2 rfl⟩
  exact ⟨holdLevel_standard, htight, ⟨by decide, by decide, by decide⟩,
    ⟨⟨hvalue, by decide⟩, by decide, by decide⟩, by decide +kernel⟩

end LineForm
end VerilogLayout

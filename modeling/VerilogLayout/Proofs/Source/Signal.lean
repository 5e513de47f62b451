import VerilogLayout.Proofs.Source.Value

/-!
# Signals that are laid out as they stand

A declaration of signals has either dimensions or an initial value behind its names. Both are read
back, `signal?_written`. An array starts at a column of its own, `firstColumn`.
-/

namespace VerilogLayout

open Text (Stops)

namespace LineForm

open Scan Line

/-- The initial value of a signal with its equals sign, or nothing. -/
def initialText (value : Option Text) : Text :=
  match value with
  | some value => " = " ++ value
  | none => []

/-- A value stands directly behind the names. -/
theorem writtenNames_eq (names : List Text) (value : Option Text) :
    writtenNames names value = List.intercalate ", " names ++ initialText value := by
  cases value <;> rfl

/-- The fields of a declaration of signals. -/
structure IsSignal (keyword signing range : Text) (names dimensions : List Text)
    (value : Option Text) : Prop where
  keyword : keyword ∈ signalKeywords
  vector : IsVector signing range names
  isRange : ∀ dimension ∈ dimensions, Range.IsRange dimension
  isValue : ∀ text ∈ value, IsValue text
  safe : dimensions = [] ∨ value = none

/-! ## Behind the names -/

section
variable {value : Option Text}

/-- What stands behind the names and dimensions of signals is no range, word or blank. -/
theorem barren_initialText (value : Option Text) (n : Nat) :
    Barren (Text.trimLeft (initialText value ++ gapped n [.char ';'])) := by
  cases value with
  | none =>
      rw [initialText, List.nil_append, trimLeft_terminator (.inr (.inr rfl))]
      exact .cons (by decide) []
  | some value => exact .cons (by decide) _

/-- A value is read back with its equals sign, or its absence. -/
theorem initialValue?_written (h : ∀ text ∈ value, IsValue text) (n : Nat) :
    initialValue? (Text.trimLeft (initialText value ++ gapped n [.char ';'])) = some value := by
  cases value with
  | none =>
      rw [initialText, List.nil_append, trimLeft_terminator (.inr (.inr rfl))]
      rfl
  | some value =>
      have htrim : Text.trimLeft (initialText (some value) ++ gapped n [.char ';']) =
          .char '=' :: .char ' ' :: (value ++ gapped n [.char ';']) := rfl
      rw [htrim, initialValue?]
      exact (Option.map_map some Text.trim _).symm.trans
        (congrArg (Option.map some) (statement?_written (h value rfl) n))

/-- There is nothing but a semicolon, or an equals sign, a value and a semicolon. -/
theorem initialValue?_cases {s : Text} (h : initialValue? s = some value) :
    s = [.char ';'] ∧ value = none ∨
      ∃ body, s = .char '=' :: (body ++ [.char ';']) ∧ .char ';' ∉ body ∧
        value = some (Text.trim body) := by
  unfold initialValue? at h
  split at h
  · exact .inl ⟨rfl, (Option.some.inj h).symm⟩
  · obtain ⟨body, hbody, rfl⟩ := Option.map_eq_some_iff.1 h
    obtain ⟨rfl, hnot⟩ := of_statement? hbody
    exact .inr ⟨body, rfl, hnot, rfl⟩
  · cases h

/-- An initial value is trimmed, and only the gaps around it are changed. -/
theorem of_initialValue? {s : Text} (h : initialValue? s = some value) :
    (∀ text ∈ value, IsValue text) ∧
      ∀ n, Watch.MayBecome s (initialText value ++ gapped n [.char ';']) := by
  rcases initialValue?_cases h with ⟨rfl, rfl⟩ | ⟨body, rfl, hnot, rfl⟩
  · exact ⟨nofun, mayBecome_gapped [.char ';']⟩
  · refine ⟨fun text htext => ?_, fun n => ?_⟩
    · obtain rfl := Option.some.inj htext
      exact isValue_trim hnot
    · exact .neat_append (t := [.char ' ']) (by decide) (mayBecome_value body n)

end

/-! ## Dimensions -/

section
variable {dimensions : List Text} {value : Option Text}

theorem endsPlain_flatten (h : ∀ dimension ∈ dimensions, Range.IsRange dimension) :
    Watch.EndsPlain dimensions.flatten := by
  intro c hc
  rcases List.eq_nil_or_concat dimensions with rfl | ⟨front, last, rfl⟩
  · cases hc
  · rw [List.concat_eq_append] at h hc
    have hlast := h last (List.mem_append_right _ List.mem_cons_self)
    obtain ⟨body, rfl, -⟩ := hlast
    rw [List.flatten_append, List.flatten_singleton, ← List.cons_append, ← List.append_assoc,
      List.getLast?_concat] at hc
    obtain rfl := Option.some.inj hc
    rfl

/-- Dimensions may become their normal forms. -/
theorem mayBecome_dimensions (columns : Columns)
    (h : ∀ dimension ∈ dimensions, Range.IsRange dimension) :
    Watch.MayBecome dimensions.flatten (dimensions.map (Range.normalise columns)).flatten := by
  induction dimensions with
  | nil => exact .refl []
  | cons dimension dimensions ih =>
      obtain ⟨hfirst, hrest⟩ := List.forall_mem_cons.1 h
      exact (Range.mayBecome_normalise columns hfirst).append (Range.endsPlain_of_isRange hfirst)
        (ih hrest)

/-- The normal forms of dimensions are ranges. -/
theorem isRange_dimensions (columns : Columns)
    (h : ∀ dimension ∈ dimensions, Range.IsRange dimension) :
    ∀ dimension ∈ dimensions.map (Range.normalise columns), Range.IsRange dimension := by
  intro written hwritten
  obtain ⟨dimension, hmem, rfl⟩ := List.mem_map.1 hwritten
  exact Range.isRange_normalise columns (h dimension hmem)

/-- Normalising dimensions twice is normalising them once. -/
theorem normalise_dimensions (columns : Columns) :
    (dimensions.map (Range.normalise columns)).map (Range.normalise columns) =
      dimensions.map (Range.normalise columns) := by
  rw [List.map_map]
  exact List.map_congr_left fun dimension _ => Range.normalise_normalise columns dimension

/-- A range starts with its bracket. -/
theorem flatten_eq_nil_or_head (h : ∀ dimension ∈ dimensions, Range.IsRange dimension) :
    dimensions = [] ∨ ∃ s, dimensions.flatten = .char '[' :: s := by
  cases dimensions with
  | nil => exact .inl rfl
  | cons dimension dimensions =>
      obtain ⟨body, rfl, -⟩ := h dimension List.mem_cons_self
      exact .inr ⟨_, rfl⟩

/-- Dimensions and what stands behind them start with no name. -/
theorem name?_dimensions (h : ∀ dimension ∈ dimensions, Range.IsRange dimension) (n : Nat) :
    name? (Text.trimLeft (dimensions.flatten ++ (initialText value ++ gapped n [.char ';']))) =
      none := by
  rcases flatten_eq_nil_or_head h with rfl | ⟨s, hs⟩
  · exact name?_eq_none (barren_initialText value n)
  · rw [hs]
    rfl

/-- Behind dimensions there are no names, so the dimensions are no range in front of any. -/
theorem rangeAndNames?_dimensions (h : ∀ dimension ∈ dimensions, Range.IsRange dimension)
    (n : Nat) :
    rangeAndNames?
      (Text.trimLeft (dimensions.flatten ++ (initialText value ++ gapped n [.char ';']))) =
      none := by
  cases dimensions with
  | nil => exact rangeAndNames?_of_barren (barren_initialText value n)
  | cons dimension dimensions =>
      obtain ⟨hfirst, hrest⟩ := List.forall_mem_cons.1 h
      have hstops : Stops Text.isBlank (dimension ++ (dimensions.flatten ++
          (initialText value ++ gapped n [.char ';']))) := by
        obtain ⟨body, rfl, -⟩ := hfirst
        exact Text.stops_cons.2 rfl
      rw [List.flatten_cons, List.append_assoc, Text.trimLeft_eq_self hstops, rangeAndNames?,
        range?_append hfirst]
      dsimp only [Option.getD_some]
      rw [names?, name?_dimensions hrest]
      rfl

/-- Names are read in front of dimensions and a value. -/
theorem namesBefore_dimensions {names : List Text} (hne : names ≠ [])
    (hnames : ∀ name ∈ names, IsName name)
    (h : ∀ dimension ∈ dimensions, Range.IsRange dimension) {e : Nat} (he : 0 < e) (n : Nat) :
    NamesBefore names
      (gapped e dimensions.flatten ++ (initialText value ++ gapped n [.char ';'])) := by
  have hend : Stops isNamePart (initialText value ++ gapped n [.char ';']) := by
    cases value with
    | none =>
        rw [initialText, List.nil_append, gapped_semicolon]
        cases n <;> exact Text.stops_cons.2 rfl
    | some value => exact Text.stops_cons.2 rfl
  refine ⟨hne, hnames, stops_gapped rfl he _ hend, moreNames_eq fun t ht => ?_⟩
  rw [trimLeft_gapped] at ht
  rcases flatten_eq_nil_or_head h with rfl | ⟨s, hs⟩
  · rw [List.flatten_nil, List.nil_append] at ht
    cases value with
    | none =>
        rw [initialText, List.nil_append, trimLeft_terminator (.inr (.inr rfl))] at ht
        cases ht
    | some value => cases ht
  · rw [hs] at ht
    cases ht

end

/-! ## Signals -/

/-- A line is read by none of the forms whose first word it does not start with. -/
theorem port?_eq_none {s : Text} (h : s.takeWhile Text.isWord ∉ directions) : port? s = none := by
  rw [port?, keyword?_eq_none h]
  rfl

/-- A keyword is the first word where it ends. -/
theorem takeWhile_keyword {word s : Text} (h : IsKeyword word) (hs : Stops Text.isWord s) :
    (word ++ s).takeWhile Text.isWord = word :=
  Text.takeWhile_append h.2 hs

theorem not_mem_directions : ∀ word ∈ signalKeywords, word ∉ directions := by
  decide

section
variable {keyword signing range : Text} {names dimensions : List Text} {value : Option Text}

/-- A signal that is read has the fields of a signal, and all that counts in it are its range, its
dimensions and its value. -/
theorem of_signal? {code : Text} {form : LineForm} (h : signal? code = some form)
    (hsafe : form.isSafe) :
    ∃ keyword signing range names dimensions value,
      form = .signal keyword signing range names dimensions value ∧
        IsSignal keyword signing range names dimensions value ∧
          (∃ behind, code = keyword ++ behind) ∧ ∀ n, Watch.MayBecome code
            (range ++ (dimensions.flatten ++ (initialText value ++ gapped n [.char ';']))) := by
  obtain ⟨⟨keyword, rest⟩, hkeyword, h⟩ := Option.bind_eq_some_iff.1 h
  obtain ⟨hmem, -, behind, hcode, -⟩ := of_keyword? hkeyword
  obtain ⟨⟨signing, range, names, rest'⟩, hvector, h⟩ := Option.bind_eq_some_iff.1 h
  obtain ⟨value, hvalue, h⟩ := Option.bind_eq_some_iff.1 h
  obtain rfl := Option.some.inj h
  obtain ⟨hfields, hbecome⟩ := of_vector? hvector
  obtain ⟨hdimensions, hmore⟩ := of_ranges (Text.trimLeft rest')
  obtain ⟨hisValue, hend⟩ := of_initialValue? hvalue
  refine ⟨keyword, signing, range, names, _, value, rfl,
    ⟨hmem, hfields, hdimensions, hisValue, ?_⟩, ⟨behind, hcode⟩, fun n => ?_⟩
  · rw [isSafe, Bool.or_eq_true, Bool.and_eq_true] at hsafe
    exact hsafe.imp List.isEmpty_iff.1 fun hboth => Option.isNone_iff_eq_none.1 hboth.2
  · refine (passes_of_keyword? hkeyword).mayBecome.trans (hbecome.trans ?_)
    refine .append (.refl range) (endsPlain_of_isOptional hfields.range) ?_
    refine (Passes.trimLeft rest').mayBecome.trans (hmore.trans ?_)
    exact .append (.refl _) (endsPlain_flatten hdimensions) (hend n)

/-- The fields of signals are read back. -/
theorem signal?_written (h : IsSignal keyword signing range names dimensions value)
    {b c d e n : Nat} (hb : 0 < b) (hc : 0 < c) (hd : 0 < d) (he : 0 < e) :
    signal? (keyword ++ (gapped b signing ++ (gapped c range ++ (Text.spaces d ++
      (List.intercalate ", " names ++ (gapped e dimensions.flatten ++
        (initialText value ++ gapped n [.char ';']))))))) =
          some (.signal keyword signing range names dimensions value) := by
  obtain ⟨hkeyword, ⟨hsigning, hrange, hne, hnames⟩, hdimensions, hvalue, -⟩ := h
  have hword := isKeyword_of_mem_signalKeywords keyword hkeyword
  have hbefore : NamesBefore names (gapped e dimensions.flatten ++
      (initialText value ++ gapped n [.char ';'])) :=
        namesBefore_dimensions hne hnames hdimensions he n
  have hnone : rangeAndNames? (Text.trimLeft (gapped e dimensions.flatten ++
      (initialText value ++ gapped n [.char ';']))) = none := by
    rw [trimLeft_gapped, rangeAndNames?_dimensions hdimensions]
  have hvector := vector?_written hsigning hrange hbefore hnone (b := b) hc hd
  have hranges : ranges (Text.trimLeft (gapped e dimensions.flatten ++
      (initialText value ++ gapped n [.char ';']))) =
        (dimensions, Text.trimLeft (initialText value ++ gapped n [.char ';'])) := by
    rw [trimLeft_gapped]
    exact ranges_append hdimensions (range?_eq_none (barren_initialText value n).head_ne)
  have hstops := stops_gapped (p := Text.isWord) rfl hb signing
    (stops_gapped rfl hc range (stops_spaces rfl hd (List.intercalate ", " names ++
      (gapped e dimensions.flatten ++ (initialText value ++ gapped n [.char ';'])))))
  rw [signal?, keyword?_append hkeyword hword.2 hstops]
  show ((vector? _).bind _) = _
  rw [hvector]
  show ((initialValue? (ranges _).2).bind _) = _
  rw [hranges, initialValue?_written hvalue]
  rfl

/-- The column at which a declaration of signals starts that is not nested deeper. -/
def firstColumn (columns : Columns) (dimensions : List Text) : Nat :=
  if dimensions.isEmpty then columns .signalKeyword else columns .arrayKeyword

/-- The line of signals. -/
theorem exists_layout_signal (columns : Columns) (inParameters : Bool) (indent : Nat)
    (h : IsSignal keyword signing range names dimensions value) :
    ∃ b c d e n, (0 < b ∧ 0 < c ∧ 0 < d ∧ 0 < e) ∧
      layout columns indent inParameters (.signal keyword signing range names dimensions value) =
        Text.spaces (firstColumn columns dimensions + shiftFor indent (columns .signalKeyword)) ++
          (keyword ++ (gapped b signing ++ (gapped c (writtenRange columns range) ++
            (Text.spaces d ++ (List.intercalate ", " names ++
              (gapped e (dimensions.map (Range.normalise columns)).flatten ++
                (initialText value ++ gapped n [.char ';']))))))) := by
  have hword := isKeyword_of_mem_signalKeywords keyword h.keyword
  have hnames := intercalate_ne_nil h.vector.ne_nil h.vector.isName
  have hfield : writtenNames names value ≠ [] := by
    rw [writtenNames_eq]
    exact List.append_ne_nil_of_left_ne_nil hnames _
  -- A declaration without dimensions uses the columns of signals, one with dimensions those of
  -- arrays.
  cases dimensions with
  | nil =>
      obtain ⟨a, b, c, d, e, n, ⟨-, hb, hc, hd, he⟩, htext⟩ :=
        exists_declaration hword.1 [] signing (writtenRange columns range)
          (writtenNames names value) [] [.char ';'] (columns .signalKeyword)
          (shiftFor indent (columns .signalKeyword))
          (columns .signalSigning + shiftFor indent (columns .signalKeyword))
          (columns .signalRange + shiftFor indent (columns .signalKeyword))
          (columns .signalName + shiftFor indent (columns .signalKeyword)) 0
          (columns .signalEnd + shiftFor indent (columns .signalKeyword))
      refine ⟨b, c, d, e, n, ⟨hb, hc, hd, he⟩, htext.trans ?_⟩
      rw [gapped_nil, List.nil_append, gapped_of_ne_nil d hfield, writtenNames_eq]
      simp only [List.append_assoc, gapped_nil, List.nil_append, List.map_nil, List.flatten_nil]
      rfl
  | cons dimension dimensions =>
      obtain rfl := h.safe.resolve_left (List.cons_ne_nil dimension dimensions)
      have hif :
          ((dimension :: dimensions).map (Range.normalise columns)).flatten.isEmpty ≠ true := by
        obtain hnil | ⟨s, hs⟩ := flatten_eq_nil_or_head (isRange_dimensions columns h.isRange)
        · cases hnil
        · rw [hs]
          exact Bool.false_ne_true
      obtain ⟨a, b, c, d, e, n, ⟨-, hb, hc, hd, he⟩, htext⟩ :=
        exists_declaration hword.1 [] signing (writtenRange columns range)
          (writtenNames names none)
          ((dimension :: dimensions).map (Range.normalise columns)).flatten [.char ';']
          (columns .arrayKeyword) (shiftFor indent (columns .signalKeyword))
          (columns .arraySigning + shiftFor indent (columns .signalKeyword))
          (columns .arrayRange + shiftFor indent (columns .signalKeyword))
          (columns .arrayName + shiftFor indent (columns .signalKeyword))
          (columns .arrayDimensions + shiftFor indent (columns .signalKeyword))
          (columns .arrayEnd + shiftFor indent (columns .signalKeyword))
      refine ⟨b, c, d, e, n, ⟨hb, hc, hd, he⟩, ?_⟩
      rw [layout, Layout.signal, if_neg hif]
      refine htext.trans ?_
      rw [gapped_nil, List.nil_append, gapped_of_ne_nil d hfield, writtenNames_eq]
      simp only [List.append_assoc, initialText, List.nil_append]
      rfl

theorem isNeat_signing (h : signing = [] ∨ signing ∈ Keyword.signings) :
    ∀ c ∈ signing, Watch.IsNeat c := by
  rcases h with rfl | h
  · exact List.forall_mem_nil _
  · exact isNeat_of_isKeyword (isKeyword_of_mem_signings signing h)

theorem isTight_signal (h : IsSignal keyword signing range names dimensions value)
    (b c d e n : Nat) :
    Text.IsTight (keyword ++ (gapped b signing ++ (gapped c range ++ (Text.spaces d ++
      (List.intercalate ", " names ++ (gapped e dimensions.flatten ++
        (initialText value ++ gapped n [.char ';']))))))) := by
  have hend : Text.Ends Text.isBlank (gapped n [.char ';']) := by
    rw [gapped_semicolon]
    exact Text.ends_concat rfl _
  exact ⟨(starts_of_isKeyword (isKeyword_of_mem_signalKeywords keyword h.keyword) [] _).1,
    (((((((hend.append _).append _).append _).append _).append _).append _).append _).stops⟩

/-- The code of signals is read as those signals. -/
theorem eq_signal_of_ofCode? (h : IsSignal keyword signing range names dimensions value)
    {b c d e n : Nat} (hb : 0 < b) (hc : 0 < c) (hd : 0 < d) (he : 0 < e) {form : LineForm}
    (hform : ofCode? (keyword ++ (gapped b signing ++ (gapped c range ++ (Text.spaces d ++
      (List.intercalate ", " names ++ (gapped e dimensions.flatten ++
        (initialText value ++ gapped n [.char ';']))))))) = some form) :
    form = .signal keyword signing range names dimensions value := by
  have hstops := stops_gapped (p := Text.isWord) rfl hb signing (stops_gapped rfl hc range
    (stops_spaces rfl hd (List.intercalate ", " names ++ (gapped e dimensions.flatten ++
      (initialText value ++ gapped n [.char ';'])))))
  have hfirst := takeWhile_keyword (isKeyword_of_mem_signalKeywords keyword h.keyword) hstops
  have hread := signal?_written h (n := n) hb hc hd he
  rcases (of_ofCode? hform).2 with hfound | ⟨-, hfound | ⟨hnone, -⟩⟩
  · rw [port?_eq_none (by rw [hfirst]; exact not_mem_directions keyword h.keyword)] at hfound
    cases hfound
  · rw [hread] at hfound
    exact (Option.some.inj hfound).symm
  · rw [hread] at hnone
    cases hnone

/-- A signal that is laid out is settled. -/
theorem settled_signal (columns : Columns) (inParameters : Bool) (indent : Nat)
    {code : Text} {form : LineForm} (h : signal? code = some form) (hsafe : form.isSafe) :
    ∃ start code', form.layout columns indent inParameters = Text.spaces start ++ code' ∧
      Settled columns inParameters start code code' := by
  obtain ⟨keyword, signing, range, names, dimensions, value, rfl, hsignal, ⟨behind, hcode⟩,
    hbecome⟩ := of_signal? h hsafe
  obtain ⟨b, c, d, e, n, ⟨hb, hc, hd, he⟩, hline⟩ :=
    exists_layout_signal columns inParameters indent hsignal
  have hword := isKeyword_of_mem_signalKeywords keyword hsignal.keyword
  have hvector := hsignal.vector
  have hfields : IsSignal keyword signing (writtenRange columns range) names
      (dimensions.map (Range.normalise columns)) value :=
    { hsignal with
      vector := { hvector with range := isOptional_writtenRange columns hvector.range }
      isRange := isRange_dimensions columns hsignal.isRange
      safe := hsignal.safe.imp_left fun hnil => by rw [hnil, List.map_nil] }
  refine ⟨_, _, hline, isTight_signal hfields b c d e n,
    hcode ▸ (starts_of_isKeyword hword behind _).2, ?_, ?_⟩
  · refine (hbecome n).trans ?_
    refine .neat_append (isNeat_of_isKeyword hword)
      (.neat_append (isNeat_gapped (isNeat_signing hvector.signing) b)
        ((mayBecome_writtenRange columns hvector.range c).append
          (endsPlain_of_isOptional hvector.range) ?_))
    refine .neat_append (fun _ => Watch.isNeat_of_mem_spaces)
      (.neat_append (isNeat_names hvector.isName) ?_)
    refine .append ?_ (endsPlain_flatten hsignal.isRange) (.refl _)
    exact (mayBecome_dimensions columns hsignal.isRange).trans (mayBecome_gapped _ e)
  · intro harray form hform
    obtain rfl := eq_signal_of_ofCode? hfields hb hc hd he hform
    have hfirst : firstColumn columns dimensions = columns .signalKeyword := by
      rw [firstColumn, harray, ite_self]
    rw [← hline, layout, layout, writtenRange_writtenRange columns hvector.range,
      normalise_dimensions columns, hfirst, shiftFor_add]

end

end LineForm
end VerilogLayout

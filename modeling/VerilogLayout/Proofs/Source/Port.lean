import VerilogLayout.Proofs.Source.Vector

/-!
# Ports that are laid out as they stand

`Settled` says what it takes for the line of a form to be a fixed point: whatever form is read from
the new code has the line that stands there. For ports, `settled_port`, the fields themselves are
read back.
-/

namespace VerilogLayout

open Text (Stops)

namespace LineForm

open Scan Line

/-- `code'` stands at the column `start` as it is laid out, and was made from `code`. An array finds
its shift again only if its first column is the one that shifts are measured from. -/
structure Settled (columns : Columns) (inParameters : Bool) (start : Nat) (code code' : Text) :
    Prop where
  tight : code'.IsTight
  starts : ∃ c, code.head? = some c ∧ code'.head? = some c ∧ c ≠ ')'
  becomes : Watch.MayBecome code code'
  again : columns .arrayKeyword = columns .signalKeyword → ∀ form, ofCode? code' = some form →
    form.layout columns start inParameters = Text.spaces start ++ code'

/-- The shift is found again from the column at which the first field stands. -/
theorem shiftFor_add (indent column : Nat) :
    shiftFor (column + shiftFor indent column) column = shiftFor indent column := by
  unfold shiftFor
  rw [Nat.add_sub_cancel_left, Nat.mul_div_cancel _ (by decide)]

/-- A form is read by the first reader that succeeds. -/
theorem of_ofCode? {code : Text} {form : LineForm} (h : ofCode? code = some form) :
    isSafe form ∧ (port? code = some form ∨ port? code = none ∧ (signal? code = some form ∨
      signal? code = none ∧ (parameter? code = some form ∨ parameter? code = none ∧
        (assign? code = some form ∨ assign? code = none ∧ connection? code = some form)))) := by
  rw [ofCode?, Option.filter_eq_some_iff] at h
  refine ⟨h.2, ?_⟩
  rcases of_orElse h.1 with hport | ⟨hport, h⟩
  · exact .inl hport
  refine .inr ⟨hport, ?_⟩
  rcases of_orElse h with hsignal | ⟨hsignal, h⟩
  · exact .inl hsignal
  refine .inr ⟨hsignal, ?_⟩
  rcases of_orElse h with hparameter | ⟨hparameter, h⟩
  · exact .inl hparameter
  exact .inr ⟨hparameter, of_orElse h⟩

/-! ## Ranges as they are written -/

section
variable {range : Text} (columns : Columns)

/-- A range is written in its normal form. -/
theorem writtenRange_of_isRange (h : Range.IsRange range) :
    writtenRange columns range = Range.normalise columns range := by
  obtain ⟨body, rfl, -⟩ := h
  rfl

/-- What is written for a range is one, or nothing. -/
theorem isOptional_writtenRange (h : Range.IsOptional range) :
    Range.IsOptional (writtenRange columns range) := by
  rcases h with rfl | h
  · exact .inl rfl
  · rw [writtenRange_of_isRange columns h]
    exact .inr (Range.isRange_normalise columns h)

/-- Writing a range twice is writing it once. -/
theorem writtenRange_writtenRange (h : Range.IsOptional range) :
    writtenRange columns (writtenRange columns range) = writtenRange columns range := by
  rcases h with rfl | h
  · rfl
  · rw [writtenRange_of_isRange columns h,
      writtenRange_of_isRange columns (Range.isRange_normalise columns h),
      Range.normalise_normalise columns _]

/-- A gap may be put in front of a field. -/
theorem mayBecome_gapped (field : Text) (n : Nat) : Watch.MayBecome field (gapped n field) := by
  cases field with
  | nil => exact .refl []
  | cons c field =>
      rw [gapped_of_ne_nil n (List.cons_ne_nil c field)]
      exact .neat_append (fun _ => Watch.isNeat_of_mem_spaces) (.refl _)

/-- A written range may stand behind any gap. -/
theorem mayBecome_writtenRange (h : Range.IsOptional range) (n : Nat) :
    Watch.MayBecome range (gapped n (writtenRange columns range)) := by
  refine .trans ?_ (mayBecome_gapped _ n)
  rcases h with rfl | h
  · exact .refl []
  · rw [writtenRange_of_isRange columns h]
    exact Range.mayBecome_normalise columns h

end

/-! ## Words and names as they are written -/

theorem isNeat_of_isKeyword {word : Text} (h : IsKeyword word) : ∀ c ∈ word, Watch.IsNeat c :=
  fun c hc => Watch.isNeat_of_isNamePart (isNamePart_of_isWord (h.2 c hc))

theorem isNeat_gapped {field : Text} (h : ∀ c ∈ field, Watch.IsNeat c) (n : Nat) :
    ∀ c ∈ gapped n field, Watch.IsNeat c :=
  forall_mem_gapped (by decide) h n

theorem isNeat_intercalate {separator : Text} (hseparator : ∀ c ∈ separator, Watch.IsNeat c)
    {fields : List Text} (h : ∀ field ∈ fields, ∀ c ∈ field, Watch.IsNeat c) :
    ∀ c ∈ List.intercalate separator fields, Watch.IsNeat c := by
  induction fields with
  | nil => exact List.forall_mem_nil _
  | cons field fields ih =>
      obtain ⟨hfield, hfields⟩ := List.forall_mem_cons.1 h
      cases fields with
      | nil => rwa [List.intercalate_singleton]
      | cons next others =>
          rw [List.intercalate_cons_cons]
          exact List.forall_mem_append.2
            ⟨List.forall_mem_append.2 ⟨hfield, hseparator⟩, ih hfields⟩

theorem isNeat_names {names : List Text} (h : ∀ name ∈ names, IsName name) :
    ∀ c ∈ List.intercalate ", " names, Watch.IsNeat c :=
  isNeat_intercalate (by decide) fun name hname c hc =>
    Watch.isNeat_of_isNamePart ((h name hname).forall_mem c hc)

/-- The first word of a code stays at its start. -/
theorem starts_of_isKeyword {word : Text} (h : IsKeyword word) (s t : Text) :
    Stops Text.isBlank (word ++ t) ∧
      ∃ c, (word ++ s).head? = some c ∧ (word ++ t).head? = some c ∧ c ≠ ')' := by
  obtain ⟨hne, hword⟩ := h
  obtain ⟨c, word, rfl⟩ := List.exists_cons_of_ne_nil hne
  have hc := hword c List.mem_cons_self
  refine ⟨Text.stops_cons.2 (isBlank_eq_false (isNamePart_of_isWord hc)), c, rfl, rfl, ?_⟩
  rintro rfl
  cases hc

/-! ## Ports -/

section
variable {keyword net signing range terminator : Text} {names : List Text}

/-- The fields of a port. -/
structure IsPort (keyword net signing range : Text) (names : List Text) (terminator : Text) :
    Prop where
  keyword : keyword ∈ directions
  net : net = [] ∨ net ∈ Keyword.netTypes
  vector : IsVector signing range names
  terminator : IsTerminator terminator

/-- A port that is read has the fields of a port, and all that counts in it are its range and its
terminator. -/
theorem of_port? {code : Text} {form : LineForm} (h : port? code = some form) :
    ∃ keyword net signing range names terminator,
      form = .port keyword net signing range names terminator ∧
        IsPort keyword net signing range names terminator ∧
          (∃ behind, code = keyword ++ behind) ∧ Watch.MayBecome code (range ++ terminator) := by
  obtain ⟨⟨keyword, rest⟩, hkeyword, h⟩ := Option.bind_eq_some_iff.1 h
  obtain ⟨hmem, -, behind, hcode, -⟩ := of_keyword? hkeyword
  have hfront := (passes_of_keyword? hkeyword).mayBecome
  have hend : ∀ {s range rest terminator : Text}, Watch.MayBecome s (range ++ rest) →
      Range.IsOptional range → Passes rest terminator → Watch.MayBecome s (range ++ terminator) :=
    fun hs hrange hrest =>
      hs.trans (.append (.refl _) (endsPlain_of_isOptional hrange) hrest.mayBecome)
  rcases of_orElse h with h | ⟨-, h⟩
  · obtain ⟨⟨net, rest'⟩, hnet, h⟩ := Option.bind_eq_some_iff.1 h
    obtain ⟨⟨signing, range, names, rest''⟩, hvector, h⟩ := Option.bind_eq_some_iff.1 h
    obtain ⟨terminator, hterminator, h⟩ := Option.bind_eq_some_iff.1 h
    obtain ⟨hfields, hbecome⟩ := of_vector? hvector
    obtain ⟨hisTerminator, hpasses⟩ := of_terminator? hterminator
    refine ⟨keyword, net, signing, range, names, terminator, (Option.some.inj h).symm,
      ⟨hmem, .inr (of_keyword? hnet).1, hfields, hisTerminator⟩, ⟨behind, hcode⟩, ?_⟩
    exact hfront.trans ((passes_of_keyword? hnet).mayBecome.trans
      (hend hbecome hfields.range hpasses))
  · obtain ⟨⟨signing, range, names, rest'⟩, hvector, h⟩ := Option.bind_eq_some_iff.1 h
    obtain ⟨terminator, hterminator, h⟩ := Option.bind_eq_some_iff.1 h
    obtain ⟨hfields, hbecome⟩ := of_vector? hvector
    obtain ⟨hisTerminator, hpasses⟩ := of_terminator? hterminator
    refine ⟨keyword, [], signing, range, names, terminator, (Option.some.inj h).symm,
      ⟨hmem, .inl rfl, hfields, hisTerminator⟩, ⟨behind, hcode⟩, ?_⟩
    exact hfront.trans (hend hbecome hfields.range hpasses)

/-- The fields of a port are read back. -/
theorem port?_written (h : IsPort keyword net signing range names terminator) {a b c d n : Nat}
    (ha : 0 < a) (hb : 0 < b) (hc : 0 < c) (hd : 0 < d) :
    port? (keyword ++ (gapped a net ++ (gapped b signing ++ (gapped c range ++
      (Text.spaces d ++ (List.intercalate ", " names ++ gapped n terminator)))))) =
        some (.port keyword net signing range names terminator) := by
  obtain ⟨hkeyword, hnet, ⟨hsigning, hrange, hne, hnames⟩, hterminator⟩ := h
  have hword := isKeyword_of_mem_directions keyword hkeyword
  have hbefore := namesBefore_terminator hne hnames hterminator n
  have hnone : rangeAndNames? (Text.trimLeft (gapped n terminator)) = none := by
    rw [trimLeft_terminator hterminator, rangeAndNames?_of_barren hterminator.barren]
  have hvector := vector?_written hsigning hrange hbefore hnone (b := b) hc hd
  have hend := terminator?_written hterminator n
  have hstops := stops_gapped (p := Text.isWord) rfl hb signing
    (stops_gapped rfl hc range
      (stops_spaces rfl hd (List.intercalate ", " names ++ gapped n terminator)))
  rw [port?, keyword?_append hkeyword hword.2 (stops_gapped rfl ha net hstops)]
  show ((keyword? Keyword.netTypes _).bind _ <|> (vector? _).bind _) = _
  rcases hnet with rfl | hnet
  · -- A name may be read as the type of a net; then no name is left.
    rw [gapped_nil, List.nil_append, hvector]
    have hrest : ∀ {word behind}, keyword? Keyword.netTypes (Text.trimLeft (gapped b signing ++
        (gapped c range ++
          (Text.spaces d ++ (List.intercalate ", " names ++ gapped n terminator))))) =
          some (word, behind) → vector? behind = none := by
      intro word behind hfound
      refine vector?_of_barren ?_
      rcases of_keyword?_vector (by decide) (by decide) hsigning hrange hbefore hc hd hfound with
        rfl | hbarren
      · rw [trimLeft_terminator hterminator]
        exact hterminator.barren
      · exact hbarren
    cases hfound : keyword? Keyword.netTypes (Text.trimLeft (gapped b signing ++
        (gapped c range ++
          (Text.spaces d ++ (List.intercalate ", " names ++ gapped n terminator))))) with
    | none =>
        show ((terminator? _).bind _) = _
        rw [hend]
        rfl
    | some found =>
        obtain ⟨word, behind⟩ := found
        show ((vector? behind).bind _ <|> (terminator? _).bind _) = _
        rw [hrest hfound, hend]
        rfl
  -- A net type that is written is read as one, and the first alternative succeeds.
  · have hword := isKeyword_of_mem_signalKeywords net (List.mem_append_left _ hnet)
    rw [trimLeft_keyword hword, keyword?_append hnet hword.2 hstops]
    show ((vector? _).bind _ <|> _) = _
    rw [hvector]
    show ((terminator? _).bind _ <|> _) = _
    rw [hend]
    rfl

/-- The line of a port. -/
theorem exists_layout_port (columns : Columns) (inParameters : Bool) (indent : Nat)
    (h : IsPort keyword net signing range names terminator) :
    ∃ a b c d n, (0 < a ∧ 0 < b ∧ 0 < c ∧ 0 < d) ∧
      layout columns indent inParameters (.port keyword net signing range names terminator) =
        Text.spaces (columns .portKeyword + shiftFor indent (columns .portKeyword)) ++
          (keyword ++ (gapped a net ++ (gapped b signing ++
            (gapped c (writtenRange columns range) ++
              (Text.spaces d ++ (List.intercalate ", " names ++ gapped n terminator)))))) := by
  have hword := isKeyword_of_mem_directions keyword h.keyword
  have hnames := intercalate_ne_nil h.vector.ne_nil h.vector.isName
  obtain ⟨a, b, c, d, e, n, ⟨ha, hb, hc, hd, -⟩, htext⟩ :=
    exists_declaration hword.1 net signing (writtenRange columns range) (writtenNames names none)
      [] terminator (columns .portKeyword) (shiftFor indent (columns .portKeyword))
      (columns .portSigning + shiftFor indent (columns .portKeyword))
      (columns .portRange + shiftFor indent (columns .portKeyword))
      (columns .portName + shiftFor indent (columns .portKeyword)) 0
      (columns .portEnd + shiftFor indent (columns .portKeyword))
  refine ⟨a, b, c, d, n, ⟨ha, hb, hc, hd⟩, htext.trans ?_⟩
  rw [writtenNames, List.append_nil, gapped_of_ne_nil d hnames, gapped_nil, List.nil_append,
    List.append_assoc]

/-- What a terminator ends ends with no blank. -/
theorem ends_terminator {s : Text} (hs : Text.Ends Text.isBlank s) (h : IsTerminator terminator)
    (n : Nat) : Text.Ends Text.isBlank (s ++ gapped n terminator) := by
  rcases h with rfl | rfl | rfl
  · rwa [gapped_nil, List.append_nil]
  · rw [gapped_of_ne_nil n (by decide), ← List.append_assoc]
    exact Text.ends_concat rfl _
  · rw [gapped_of_ne_nil n (by decide), ← List.append_assoc]
    exact Text.ends_concat rfl _

/-- The last character of a list of names is no blank. -/
theorem ends_names (hne : names ≠ []) (hnames : ∀ name ∈ names, IsName name) :
    Text.Ends Text.isBlank (List.intercalate ", " names) := by
  obtain ⟨c, hc⟩ := Option.ne_none_iff_exists'.1
    (mt List.getLast?_eq_none_iff.1 (intercalate_ne_nil hne hnames))
  exact ⟨c, hc, isBlank_eq_false (isNamePart_last hne hnames c hc)⟩

theorem isTight_port (h : IsPort keyword net signing range names terminator) (a b c d n : Nat) :
    Text.IsTight (keyword ++ (gapped a net ++ (gapped b signing ++ (gapped c range ++
      (Text.spaces d ++ (List.intercalate ", " names ++ gapped n terminator)))))) := by
  have hend := ends_terminator (ends_names h.vector.ne_nil h.vector.isName) h.terminator n
  exact ⟨(starts_of_isKeyword (isKeyword_of_mem_directions keyword h.keyword) [] _).1,
    (((((hend.append _).append _).append _).append _).append _).stops⟩

/-- The code of a port is read as that port. -/
theorem eq_port_of_ofCode? (h : IsPort keyword net signing range names terminator)
    {a b c d n : Nat} (ha : 0 < a) (hb : 0 < b) (hc : 0 < c) (hd : 0 < d) {form : LineForm}
    (hform : ofCode? (keyword ++ (gapped a net ++ (gapped b signing ++ (gapped c range ++
      (Text.spaces d ++ (List.intercalate ", " names ++ gapped n terminator)))))) = some form) :
    form = .port keyword net signing range names terminator := by
  rcases (of_ofCode? hform).2 with hread | ⟨hnone, -⟩
  · rw [port?_written h ha hb hc hd] at hread
    exact (Option.some.inj hread).symm
  · rw [port?_written h ha hb hc hd] at hnone
    cases hnone

/-- A port that is laid out is settled. -/
theorem settled_port (columns : Columns) (inParameters : Bool) (indent : Nat) {code : Text}
    {form : LineForm} (h : port? code = some form) :
    ∃ start code', form.layout columns indent inParameters = Text.spaces start ++ code' ∧
      Settled columns inParameters start code code' := by
  obtain ⟨keyword, net, signing, range, names, terminator, rfl, hport, ⟨behind, hcode⟩,
    hbecome⟩ := of_port? h
  obtain ⟨a, b, c, d, n, ⟨ha, hb, hc, hd⟩, hline⟩ :=
    exists_layout_port columns inParameters indent hport
  have hword := isKeyword_of_mem_directions keyword hport.keyword
  have hvector := hport.vector
  have hfields : IsPort keyword net signing (writtenRange columns range) names terminator :=
    { hport with
      vector := { hvector with range := isOptional_writtenRange columns hvector.range } }
  refine ⟨_, _, hline, isTight_port hfields a b c d n,
    hcode ▸ (starts_of_isKeyword hword behind _).2, ?_, ?_⟩
  · refine hbecome.trans ?_
    have hneat : ∀ c ∈ net, Watch.IsNeat c := by
      rcases hport.net with rfl | hnet
      · exact List.forall_mem_nil _
      · exact isNeat_of_isKeyword
          (isKeyword_of_mem_signalKeywords net (List.mem_append_left _ hnet))
    have hneat' : ∀ c ∈ signing, Watch.IsNeat c := by
      rcases hvector.signing with rfl | hsigning
      · exact List.forall_mem_nil _
      · exact isNeat_of_isKeyword (isKeyword_of_mem_signings signing hsigning)
    refine .neat_append (isNeat_of_isKeyword hword) (.neat_append (isNeat_gapped hneat a)
      (.neat_append (isNeat_gapped hneat' b)
        ((mayBecome_writtenRange columns hvector.range c).append
          (endsPlain_of_isOptional hvector.range) ?_)))
    refine .neat_append (fun _ => Watch.isNeat_of_mem_spaces)
      (.neat_append (isNeat_names hvector.isName) (mayBecome_gapped terminator n))
  · intro _ form hform
    obtain rfl := eq_port_of_ofCode? hfields ha hb hc hd hform
    rw [← hline, layout, layout, writtenRange_writtenRange columns hvector.range, shiftFor_add]

end

end LineForm
end VerilogLayout

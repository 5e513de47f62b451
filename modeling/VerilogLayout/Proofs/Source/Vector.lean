import VerilogLayout.Proofs.Source.Gap
import VerilogLayout.Proofs.Source.Scan

/-!
# Declarations read back

The fields of a declaration are read back from the text that is written for them, as
`vector?_written` says. A name may look like a keyword, and then the keyword is tried first;
`of_keyword?_intercalate` says that nothing follows it there that a declaration could go on with.
-/

namespace VerilogLayout

open Text (Stops)

namespace Range

/-- A range, or none. -/
def IsOptional (s : Text) : Prop :=
  s = [] ∨ IsRange s

end Range

namespace LineForm

open Scan Line

/-- A word that is not empty. -/
def IsKeyword (s : Text) : Prop :=
  s ≠ [] ∧ ∀ c ∈ s, Text.isWord c

instance (s : Text) : Decidable (IsKeyword s) :=
  inferInstanceAs (Decidable (s ≠ [] ∧ ∀ c ∈ s, Text.isWord c))

theorem isKeyword_of_mem_directions : ∀ word ∈ directions, IsKeyword word := by
  decide

theorem isKeyword_of_mem_signings : ∀ word ∈ Keyword.signings, IsKeyword word := by
  decide

theorem isKeyword_of_mem_signalKeywords : ∀ word ∈ signalKeywords, IsKeyword word := by
  decide

/-- Behind spaces a keyword comes to the front. -/
theorem trimLeft_keyword {word : Text} (h : IsKeyword word) (n : Nat) (s : Text) :
    Text.trimLeft (gapped n word ++ s) = word ++ s := by
  obtain ⟨hne, hword⟩ := h
  rw [gapped_of_ne_nil n hne, List.append_assoc]
  obtain ⟨c, word, rfl⟩ := List.exists_cons_of_ne_nil hne
  refine Text.trimLeft_append (Text.allBlank_spaces n) (Text.stops_cons.2 ?_)
  exact isBlank_eq_false (isNamePart_of_isWord (hword c List.mem_cons_self))

/-- No keyword starts a barren text. -/
theorem keyword?_of_barren {keywords : List Text} (hnil : [] ∉ keywords) {s : Text}
    (h : Barren s) : keyword? keywords s = none := by
  refine keyword?_eq_none ?_
  rwa [takeWhile_isWord h]

/-- Neither a range nor names start a barren text. -/
theorem rangeAndNames?_of_barren {s : Text} (h : Barren s) : rangeAndNames? s = none := by
  rw [rangeAndNames?, range?_eq_none h.head_ne]
  dsimp only [Option.getD_none]
  rw [h.trimLeft_eq, names?, name?_eq_none h]
  rfl

/-- No vector starts a barren text. -/
theorem vector?_of_barren {s : Text} (h : Barren s) : vector? s = none := by
  rw [vector?, keyword?_of_barren (by decide) h, rangeAndNames?_of_barren h]
  rfl

/-- A name that looks like a keyword is followed by what follows the names, or by nothing that a
declaration goes on with. -/
theorem of_keyword?_intercalate {keywords names : List Text} {rest word behind : Text}
    (hbefore : NamesBefore names rest)
    (h : keyword? keywords (List.intercalate ", " names ++ rest) = some (word, behind)) :
    behind = Text.trimLeft rest ∨ Barren behind := by
  obtain ⟨hne, hnames, hrest, -⟩ := hbefore
  obtain ⟨name, others, rfl⟩ := List.exists_cons_of_ne_nil hne
  obtain ⟨hname, -⟩ := List.forall_mem_cons.1 hnames
  -- Behind the first name stand the rest or a comma.
  obtain ⟨t, ht, hstops, hend⟩ : ∃ t, List.intercalate ", " (name :: others) ++ rest = name ++ t ∧
      Stops isNamePart t ∧ (t = rest ∨ Barren t) := by
    cases others with
    | nil =>
        rw [List.intercalate_singleton]
        exact ⟨rest, rfl, hrest, .inl rfl⟩
    | cons next others =>
        refine ⟨.char ',' :: .char ' ' :: (List.intercalate ", " (next :: others) ++ rest), ?_,
          Text.stops_cons.2 rfl, .inr (.cons (by decide) _)⟩
        rw [List.intercalate_cons_cons, List.append_assoc, List.append_assoc]
        rfl
  obtain ⟨-, hword, rest', hsplit, hstops', rfl⟩ := of_keyword? h
  have hrest' : (name ++ t).dropWhile Text.isWord = rest' := by
    rw [← ht, hsplit, Text.dropWhile_append hword hstops']
  obtain ⟨hcut, hfirst, hlast⟩ := Text.exists_run Text.isWord name
  cases hdollar : name.dropWhile Text.isWord with
  | nil =>
      rw [hdollar, List.append_nil] at hcut
      rw [← hcut] at hfirst
      have hstopsWord : Stops Text.isWord t := by
        intro c hc
        rw [Bool.eq_false_iff]
        intro hisWord
        have hpart := hstops c hc
        rw [isNamePart_of_isWord hisWord] at hpart
        cases hpart
      obtain rfl : t = rest' := (Text.dropWhile_append hfirst hstopsWord).symm.trans hrest'
      refine hend.imp (fun heq => ?_) fun hbarren => ?_
      · rw [heq]
      · rwa [hbarren.trimLeft_eq]
  | cons d ds =>
      rw [hdollar] at hcut hlast
      -- A character of a name that belongs to no word is the dollar sign.
      have hpart := hname.forall_mem d (hcut ▸ List.mem_append_right _ List.mem_cons_self)
      have hnoWord := Text.stops_cons.1 hlast
      rw [isNamePart, hnoWord, Bool.false_or, decide_eq_true_eq] at hpart
      have hstopsWord : Stops Text.isWord (d :: ds ++ t) := Text.stops_cons.2 hnoWord
      have hbarren : Barren (d :: ds ++ t) := .cons (by rw [hpart]; decide) _
      right
      rw [← hrest', hcut, List.append_assoc, Text.dropWhile_append hfirst hstopsWord,
        hbarren.trimLeft_eq]
      exact hbarren

section
variable {signing range : Text} {names : List Text} {rest : Text}

/-- Behind spaces names come to the front. -/
theorem trimLeft_intercalate (h : NamesBefore names rest) (d : Nat) :
    Text.trimLeft (Text.spaces d ++ (List.intercalate ", " names ++ rest)) =
      List.intercalate ", " names ++ rest := by
  refine Text.trimLeft_append (Text.allBlank_spaces d) fun c hc => ?_
  exact isBlank_eq_false (isNamePart_head h.ne_nil h.isName rest c hc)

/-- Behind spaces a range comes to the front. -/
theorem trimLeft_range (h : Range.IsRange range) (c : Nat) (s : Text) :
    Text.trimLeft (gapped c range ++ s) = range ++ s := by
  obtain ⟨body, rfl, -⟩ := h
  rw [gapped_of_ne_nil c (List.cons_ne_nil _ _), List.append_assoc]
  exact Text.trimLeft_append (Text.allBlank_spaces c) (Text.stops_cons.2 rfl)

/-- A range and names are read back. -/
theorem rangeAndNames?_written (hrange : Range.IsOptional range) (h : NamesBefore names rest)
    (c d : Nat) :
    rangeAndNames? (Text.trimLeft (gapped c range ++
      (Text.spaces d ++ (List.intercalate ", " names ++ rest)))) = some (range, names, rest) := by
  have hnames : names? (Text.trimLeft (Text.spaces d ++ (List.intercalate ", " names ++ rest))) =
      some (names, rest) := by
    rw [trimLeft_intercalate h, names?_append h]
  rcases hrange with rfl | hrange
  · have hnone : range? (List.intercalate ", " names ++ rest) = none := by
      refine range?_eq_none fun c hc heq => ?_
      have hpart := isNamePart_head h.ne_nil h.isName rest c hc
      rw [heq] at hpart
      cases hpart
    rw [trimLeft_intercalate h] at hnames
    rw [gapped_nil, List.nil_append, trimLeft_intercalate h, rangeAndNames?, hnone]
    dsimp only [Option.getD_none]
    have hself := trimLeft_intercalate h 0
    rw [Text.spaces, List.replicate_zero, List.nil_append] at hself
    rw [hself, hnames]
    rfl
  · rw [trimLeft_range hrange, rangeAndNames?, range?_append hrange]
    dsimp only [Option.getD_some]
    rw [hnames]
    rfl

/-- Without a sign, a keyword that seems to start the text is a name. -/
theorem of_keyword?_written {keywords : List Text} (hnil : [] ∉ keywords)
    (hrange : Range.IsOptional range) (h : NamesBefore names rest) {c d : Nat}
    {word behind : Text}
    (hkeyword : keyword? keywords (Text.trimLeft (gapped c range ++
      (Text.spaces d ++ (List.intercalate ", " names ++ rest)))) = some (word, behind)) :
    behind = Text.trimLeft rest ∨ Barren behind := by
  rcases hrange with rfl | hrange
  · rw [gapped_nil, List.nil_append, trimLeft_intercalate h] at hkeyword
    exact of_keyword?_intercalate h hkeyword
  · rw [trimLeft_range hrange] at hkeyword
    obtain ⟨body, rfl, -⟩ := hrange
    rw [keyword?_eq_none] at hkeyword
    · cases hkeyword
    · exact hnil

/-- The same holds behind a sign, which is none of the keywords. -/
theorem of_keyword?_vector {keywords : List Text} (hnil : [] ∉ keywords)
    (hkeywords : ∀ word ∈ Keyword.signings, word ∉ keywords)
    (hsigning : signing = [] ∨ signing ∈ Keyword.signings) (hrange : Range.IsOptional range)
    (h : NamesBefore names rest) {b c d : Nat} (hc : 0 < c) (hd : 0 < d) {word behind : Text}
    (hkeyword : keyword? keywords (Text.trimLeft (gapped b signing ++ (gapped c range ++
      (Text.spaces d ++ (List.intercalate ", " names ++ rest))))) = some (word, behind)) :
    behind = Text.trimLeft rest ∨ Barren behind := by
  rcases hsigning with rfl | hsigning
  · rw [gapped_nil, List.nil_append] at hkeyword
    exact of_keyword?_written hnil hrange h hkeyword
  · have hword := isKeyword_of_mem_signings signing hsigning
    have hstops : Stops Text.isWord (gapped c range ++
        (Text.spaces d ++ (List.intercalate ", " names ++ rest))) :=
      stops_gapped rfl hc range (stops_spaces rfl hd _)
    rw [trimLeft_keyword hword, keyword?_eq_none] at hkeyword
    · cases hkeyword
    · rw [Text.takeWhile_append hword.2 hstops]
      exact hkeywords signing hsigning

/-- The fields of a vector are read back. -/
theorem vector?_written (hsigning : signing = [] ∨ signing ∈ Keyword.signings)
    (hrange : Range.IsOptional range) (h : NamesBefore names rest)
    (hrest : rangeAndNames? (Text.trimLeft rest) = none) {b c d : Nat} (hc : 0 < c) (hd : 0 < d) :
    vector? (Text.trimLeft (gapped b signing ++ (gapped c range ++
      (Text.spaces d ++ (List.intercalate ", " names ++ rest))))) =
        some (signing, range, names, rest) := by
  have hdeclared := rangeAndNames?_written hrange h c d
  rcases hsigning with rfl | hsigning
  · rw [gapped_nil, List.nil_append, vector?, hdeclared]
    cases hkeyword : keyword? Keyword.signings (Text.trimLeft (gapped c range ++
        (Text.spaces d ++ (List.intercalate ", " names ++ rest)))) with
    | none => rfl
    | some found =>
        obtain ⟨word, behind⟩ := found
        have hnone : rangeAndNames? behind = none := by
          rcases of_keyword?_written (by decide) hrange h hkeyword with rfl | hbarren
          · exact hrest
          · exact rangeAndNames?_of_barren hbarren
        show ((rangeAndNames? behind).bind _ <|> _) = _
        rw [hnone]
        rfl
  · have hword := isKeyword_of_mem_signings signing hsigning
    rw [trimLeft_keyword hword, vector?,
      keyword?_append hsigning hword.2 (stops_gapped rfl hc range (stops_spaces rfl hd _))]
    show ((rangeAndNames? _).bind _ <|> _) = _
    rw [hdeclared]
    rfl

end

/-! ## What was read -/

/-- The first form that reads a text counts. -/
theorem of_orElse {α : Type} {first second : Option α} {a : α} (h : (first <|> second) = some a) :
    first = some a ∨ first = none ∧ second = some a := by
  rw [Option.orElse_eq_orElse, Option.orElse_eq_or] at h
  exact Option.or_eq_some_iff.1 h

/-- The fields that a vector is declared with. -/
structure IsVector (signing range : Text) (names : List Text) : Prop where
  signing : signing = [] ∨ signing ∈ Keyword.signings
  range : Range.IsOptional range
  ne_nil : names ≠ []
  isName : ∀ name ∈ names, IsName name

section
variable {s signing range rest : Text} {names : List Text}

theorem endsPlain_of_isOptional (h : Range.IsOptional range) : Watch.EndsPlain range := by
  rcases h with rfl | h
  · exact Watch.endsPlain_of_isMild (List.forall_mem_nil _)
  · exact Range.endsPlain_of_isRange h

/-- A range and names that are read make a vector without a sign. -/
theorem of_rangeAndNames? (h : rangeAndNames? s = some (range, names, rest)) :
    IsVector [] range names ∧ Watch.MayBecome s (range ++ rest) := by
  obtain ⟨declared, hdeclared, heq⟩ := Option.map_eq_some_iff.1 h
  obtain ⟨hrange, hrest⟩ := Prod.mk.inj heq
  obtain ⟨hnames, hrest⟩ := Prod.mk.inj hrest
  obtain ⟨hne, hisName, hpasses⟩ := of_names? hdeclared
  rw [hnames] at hne hisName
  rw [hrest] at hpasses
  have hmore := (Passes.trimLeft _).trans hpasses
  cases hscan : range? s with
  | none =>
      rw [hscan] at hrange hmore
      rw [← hrange]
      exact ⟨⟨.inl rfl, .inl rfl, hne, hisName⟩, hmore.mayBecome⟩
  | some found =>
      obtain ⟨found, behind⟩ := found
      rw [hscan] at hrange hmore
      obtain rfl : found = range := hrange
      have hsquare := isRange_of_range? hscan
      refine ⟨⟨.inl rfl, .inr hsquare, hne, hisName⟩, ?_⟩
      rw [← append_of_range? hscan]
      exact .append (.refl found) (Range.endsPlain_of_isRange hsquare) hmore.mayBecome

/-- The fields of a vector are well formed, and only its range counts. -/
theorem of_vector? (h : vector? s = some (signing, range, names, rest)) :
    IsVector signing range names ∧ Watch.MayBecome s (range ++ rest) := by
  rw [vector?] at h
  rcases of_orElse h with h | ⟨-, h⟩
  · obtain ⟨⟨word, behind⟩, hkeyword, h⟩ := Option.bind_eq_some_iff.1 h
    obtain ⟨declared, hdeclared, h⟩ := Option.bind_eq_some_iff.1 h
    obtain ⟨rfl, rfl⟩ := Prod.mk.inj (Option.some.inj h)
    obtain ⟨hvector, hbecome⟩ := of_rangeAndNames? hdeclared
    exact ⟨{ hvector with signing := .inr (of_keyword? hkeyword).1 },
      (passes_of_keyword? hkeyword).mayBecome.trans hbecome⟩
  · obtain ⟨declared, hdeclared, heq⟩ := Option.map_eq_some_iff.1 h
    obtain ⟨rfl, rfl⟩ := Prod.mk.inj heq
    exact of_rangeAndNames? hdeclared

end

/-! ## Terminators -/

/-- What may end an item of a list. -/
def IsTerminator (s : Text) : Prop :=
  s = [] ∨ s = [.char ','] ∨ s = [.char ';']

/-- What ends a declaration is barren. -/
theorem IsTerminator.barren {s : Text} (h : IsTerminator s) : Barren s := by
  rcases h with rfl | rfl | rfl
  · exact .nil
  · exact .cons (by decide) []
  · exact .cons (by decide) []

/-- Behind spaces a terminator comes to the front. -/
theorem trimLeft_terminator {s : Text} (h : IsTerminator s) (n : Nat) :
    Text.trimLeft (gapped n s) = s := by
  have htrim := trimLeft_gapped n s []
  rw [List.append_nil, List.append_nil] at htrim
  rw [htrim, h.barren.trimLeft_eq]

/-- A terminator is read back behind any number of spaces. -/
theorem terminator?_written {s : Text} (h : IsTerminator s) (n : Nat) :
    terminator? (gapped n s) = some s := by
  rw [terminator?, trimLeft_terminator h]
  rcases h with rfl | rfl | rfl <;> rfl

/-- What is read as a terminator is one, and nothing counts in front of it. -/
theorem of_terminator? {s terminator : Text} (h : terminator? s = some terminator) :
    IsTerminator terminator ∧ Passes s terminator := by
  have hpasses := Passes.trimLeft s
  rw [terminator?] at h
  split at h
  · next hnil =>
      rw [hnil] at hpasses
      obtain rfl := Option.some.inj h
      exact ⟨.inl rfl, hpasses⟩
  · next c hone =>
      rw [hone] at hpasses
      split at h
      · next hc =>
          obtain rfl := Option.some.inj h
          rcases hc with rfl | rfl
          · exact ⟨.inr (.inl rfl), hpasses⟩
          · exact ⟨.inr (.inr rfl), hpasses⟩
      · cases h
  · cases h

/-- Names are read up to a terminator. -/
theorem namesBefore_terminator {names : List Text} (hne : names ≠ [])
    (hnames : ∀ name ∈ names, IsName name) {terminator : Text} (h : IsTerminator terminator)
    (n : Nat) : NamesBefore names (gapped n terminator) := by
  refine ⟨hne, hnames, ?_, moreNames_eq fun t ht => ?_⟩
  · intro c hc
    have hmem := List.mem_of_mem_head? hc
    have hnoPart : ∀ c ∈ terminator, isNamePart c = false := by
      rcases h with rfl | rfl | rfl <;> decide
    exact forall_mem_gapped (p := fun c => isNamePart c = false) rfl hnoPart n c hmem
  · rw [trimLeft_terminator h] at ht
    rcases h with rfl | rfl | rfl
    · cases ht
    · obtain ⟨-, rfl⟩ := List.cons_eq_cons.1 ht
      rfl
    · cases ht

end LineForm
end VerilogLayout

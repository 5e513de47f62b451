import VerilogLayout.Proofs.Source.Connection

/-!
# Where a declaration is cut

A range may hold two slashes, and then its line is cut inside of the range as if a comment started
there. A `Place` says whether a reader stands inside of a range. Whatever is read as a declaration
leaves all its ranges closed, by `along_of_port?`, `along_of_signal?` and `along_of_parameter?`, so
the line that was cut is no declaration.
-/

namespace VerilogLayout

open Text (Stops AllBlank)

/-- Where a reader of a declaration stands. -/
inductive Place where
  | outside
  | inside
  /-- An equals sign has been read outside of the ranges. -/
  | behind
deriving DecidableEq, Repr

namespace Place

/-- The place behind one more character. -/
def next : Place → CodePoint → Place
  | .outside, c => if c = '[' then .inside else if c = '=' then .behind else .outside
  | .inside, c => if c = ']' then .outside else .inside
  | .behind, _ => .behind

/-- The place behind a text. -/
def along (place : Place) (s : Text) : Place :=
  s.foldl next place

theorem along_cons (place : Place) (c : CodePoint) (s : Text) :
    place.along (c :: s) = (place.next c).along s :=
  rfl

/-- A reader goes on from where the text in front has left it. -/
theorem along_append (place : Place) (s t : Text) :
    place.along (s ++ t) = (place.along s).along t :=
  List.foldl_append

/-- A character that neither starts nor ends a range and is no equals sign. -/
def IsPlain (c : CodePoint) : Prop :=
  c ≠ '[' ∧ c ≠ ']' ∧ c ≠ '='

instance (c : CodePoint) : Decidable (IsPlain c) :=
  inferInstanceAs (Decidable (c ≠ '[' ∧ c ≠ ']' ∧ c ≠ '='))

/-- A class without the two brackets and the equals sign holds plain characters only. -/
theorem isPlain_of_class {p : CodePoint → Bool}
    (h : ∀ d ∈ [.char '[', .char ']', .char '='], p d = false) {c : CodePoint} (hc : p c) :
    IsPlain c := by
  have hne : ∀ d ∈ [.char '[', .char ']', .char '='], c ≠ d := by
    rintro d hd rfl
    rw [h c hd] at hc
    cases hc
  exact ⟨hne _ (by decide), hne _ (by decide), hne _ (by decide)⟩

theorem isPlain_of_isBlank {c : CodePoint} (h : Text.isBlank c) : IsPlain c :=
  isPlain_of_class (by decide) h

/-- The characters of names are plain. -/
theorem isPlain_of_isNamePart {c : CodePoint} (h : Scan.isNamePart c) : IsPlain c :=
  isPlain_of_class (by decide) h

theorem isPlain_of_isWord {c : CodePoint} (h : Text.isWord c) : IsPlain c :=
  isPlain_of_class (by decide) h

/-- Plain characters do not move the place. -/
theorem along_of_isPlain {s : Text} (h : ∀ c ∈ s, IsPlain c) (place : Place) :
    place.along s = place := by
  induction s with
  | nil => rfl
  | cons c s ih =>
      obtain ⟨⟨hopen, hclosing, hequals⟩, hs⟩ := List.forall_mem_cons.1 h
      have hsame : place.next c = place := by
        cases place with
        | outside => rw [next, if_neg hopen, if_neg hequals]
        | inside => rw [next, if_neg hclosing]
        | behind => rfl
      rw [along_cons, hsame, ih hs]

/-- Behind an equals sign no bracket counts any more. -/
theorem along_behind (s : Text) : along .behind s = .behind := by
  induction s with
  | nil => rfl
  | cons c s ih => exact ih

/-- Only its bracket ends a range. -/
theorem along_inside {s : Text} (h : .char ']' ∉ s) : along .inside s = .inside := by
  induction s with
  | nil => rfl
  | cons c s ih =>
      rw [List.mem_cons, not_or] at h
      rw [along_cons, next, if_neg fun heq => h.1 heq.symm, ih h.2]

theorem not_mem_of_isSquare {body : Text} (h : ∀ c ∈ body, Scan.isSquare c = false) :
    .char ']' ∉ body := fun hmem => absurd (h ']' hmem) (by decide)

/-- A range closes itself. -/
theorem along_range {range : Text} (h : Range.IsRange range) : along .outside range = .outside := by
  obtain ⟨body, rfl, hbody⟩ := h
  have hinside : along .inside body = .inside := along_inside (not_mem_of_isSquare hbody)
  rw [along_cons, along_append]
  show along (along .inside body) [.char ']'] = .outside
  rw [hinside]
  rfl

/-! ## What is read of a declaration -/

/-- All ranges are closed in what stands in front of `rest`. -/
def Spans (s rest : Text) : Prop :=
  ∃ front, s = front ++ rest ∧ along .outside front = .outside

namespace Spans

variable {s t u : Text}

theorem refl (s : Text) : Spans s s :=
  ⟨[], rfl, rfl⟩

theorem trans (h : Spans s t) (h' : Spans t u) : Spans s u := by
  obtain ⟨front, rfl, hfront⟩ := h
  obtain ⟨front', rfl, hfront'⟩ := h'
  refine ⟨front ++ front', (List.append_assoc front front' u).symm, ?_⟩
  rw [along_append, hfront, hfront']

/-- Plain characters open no range. -/
theorem of_isPlain {front : Text} (h : ∀ c ∈ front, IsPlain c) (s : Text) : Spans (front ++ s) s :=
  ⟨front, rfl, along_of_isPlain h .outside⟩

theorem of_isRange {range : Text} (h : Range.IsRange range) (s : Text) : Spans (range ++ s) s :=
  ⟨range, rfl, along_range h⟩

/-- Blanks open no range. -/
theorem trimLeft (s : Text) : Spans s (Text.trimLeft s) := by
  obtain ⟨hsplit, hblank, -⟩ := Text.exists_run Text.isBlank s
  exact ⟨_, hsplit, along_of_isPlain (fun c hc => isPlain_of_isBlank (hblank c hc)) .outside⟩

/-- What is left of a text is as far inside of ranges as the whole text. -/
theorem along_eq (h : Spans s t) : along .outside s = along .outside t := by
  obtain ⟨front, rfl, hfront⟩ := h
  rw [along_append, hfront]

end Spans
end Place

namespace LineForm

open Scan Place

section
variable {s rest : Text}

theorem spans_of_keyword? {keywords : List Text} {word : Text}
    (h : keyword? keywords s = some (word, rest)) : Spans s rest := by
  obtain ⟨-, hword, behind, rfl, -, rfl⟩ := of_keyword? h
  exact (Spans.of_isPlain (fun c hc => isPlain_of_isWord (hword c hc)) behind).trans
    (.trimLeft behind)

theorem spans_of_name? {name : Text} (h : name? s = some (name, rest)) : Spans s rest := by
  have hname := isName_of_name? h
  rw [← append_of_name? h]
  exact .of_isPlain (fun c hc => isPlain_of_isNamePart (hname.forall_mem c hc)) rest

theorem spans_of_range? {range : Text} (h : range? s = some (range, rest)) : Spans s rest := by
  rw [← append_of_range? h]
  exact .of_isRange (isRange_of_range? h) rest

/-- Names behind the first one open no range. -/
theorem spans_moreNames (s : Text) : Spans s (moreNames s).2 := by
  fun_induction moreNames s with
  | case1 s t hcomma name rest hname names rest' hrec ih =>
      rw [hrec] at ih
      have hfront := Spans.trimLeft s
      rw [hcomma] at hfront
      have hplain : ∀ c ∈ [.char ','], IsPlain c := by decide
      exact (((hfront.trans (.of_isPlain hplain t)).trans (.trimLeft t)).trans
        (spans_of_name? hname)).trans ih
  | case2 s t hcomma hname => exact .refl s
  | case3 s hcomma => exact .refl s

theorem spans_of_names? {names : List Text} (h : names? s = some (names, rest)) :
    Spans s rest := by
  rw [names?] at h
  split at h
  · next name behind hname =>
      obtain ⟨-, rfl⟩ := Prod.mk.inj (Option.some.inj h)
      exact (spans_of_name? hname).trans (spans_moreNames behind)
  · cases h

theorem spans_ranges (s : Text) : Spans s (ranges s).2 := by
  fun_induction ranges s with
  | case1 s range rest hrange list rest' hrec ih =>
      rw [hrec] at ih
      exact ((spans_of_range? hrange).trans (.trimLeft rest)).trans ih
  | case2 s hrange => exact .refl s

/-- The range in front of names is closed before they start. -/
theorem spans_of_rangeAndNames? {range : Text} {names : List Text}
    (h : rangeAndNames? s = some (range, names, rest)) : Spans s rest := by
  obtain ⟨⟨names', rest'⟩, hnames, heq⟩ := Option.map_eq_some_iff.1 h
  obtain ⟨-, heq⟩ := Prod.mk.inj heq
  obtain ⟨-, rfl⟩ := Prod.mk.inj heq
  have hrange : Spans s ((range? s).getD ([], s)).2 := by
    cases hfound : range? s with
    | none => exact .refl s
    | some found => exact spans_of_range? hfound
  exact (hrange.trans (.trimLeft _)).trans (spans_of_names? hnames)

/-- A sign, a range and names leave no range open. -/
theorem spans_of_vector? {signing range : Text} {names : List Text}
    (h : vector? s = some (signing, range, names, rest)) : Spans s rest := by
  rcases of_orElse h with h | ⟨-, h⟩
  · obtain ⟨⟨word, behind⟩, hkeyword, h⟩ := Option.bind_eq_some_iff.1 h
    obtain ⟨declared, hdeclared, h⟩ := Option.bind_eq_some_iff.1 h
    obtain ⟨-, rfl⟩ := Prod.mk.inj (Option.some.inj h)
    exact (spans_of_keyword? hkeyword).trans (spans_of_rangeAndNames? hdeclared)
  · obtain ⟨declared, hdeclared, heq⟩ := Option.map_eq_some_iff.1 h
    obtain ⟨-, rfl⟩ := Prod.mk.inj heq
    exact spans_of_rangeAndNames? hdeclared

/-- A modifier is a word or a closed range. -/
theorem spans_of_modifier? {modifier : Text} (h : modifier? s = some (modifier, rest)) :
    Spans s rest := by
  rcases of_orElse h with h | ⟨-, h⟩
  · exact spans_of_keyword? h
  · obtain ⟨⟨range, behind⟩, hrange, heq⟩ := Option.map_eq_some_iff.1 h
    obtain ⟨-, rfl⟩ := Prod.mk.inj heq
    exact (spans_of_range? hrange).trans (.trimLeft behind)

/-- The value of a parameter stands behind an equals sign. -/
theorem along_of_modified? {fuel : Nat} {found : List Text × Text × Text × Text}
    (h : modified? fuel s = some found) : along .outside s = .behind := by
  have hplain : ∀ {s : Text} {found : List Text × Text × Text × Text},
      (namedValue? s).map ([], ·) = some found → along .outside s = .behind := by
    intro s found h
    obtain ⟨named, hnamed, -⟩ := Option.map_eq_some_iff.1 h
    obtain ⟨⟨name, rest⟩, hname, h⟩ := Option.bind_eq_some_iff.1 hnamed
    dsimp only at h
    split at h
    · next t heq =>
        have htrim := Spans.trimLeft rest
        rw [heq] at htrim
        rw [((spans_of_name? hname).trans htrim).along_eq]
        exact along_behind t
    · cases h
  induction fuel generalizing s found with
  | zero => exact hplain h
  | succ fuel ih =>
      rcases of_orElse h with h | ⟨-, h⟩
      · obtain ⟨⟨modifier, rest⟩, hmodifier, h⟩ := Option.bind_eq_some_iff.1 h
        obtain ⟨⟨others, named⟩, hrec, -⟩ := Option.bind_eq_some_iff.1 h
        rw [(spans_of_modifier? hmodifier).along_eq, ih hrec]
      · exact hplain h

/-- What ends a declaration opens no range. -/
theorem along_of_terminator? {terminator : Text} (h : terminator? s = some terminator) :
    along .outside s = .outside := by
  obtain ⟨hterminator, -⟩ := of_terminator? h
  have htrim : Text.trimLeft s = terminator := by
    unfold terminator? at h
    split at h
    · next heq => rw [heq, ← Option.some.inj h]
    · next heq =>
        split at h
        · rw [heq, ← Option.some.inj h]
        · cases h
    · cases h
  rw [(Spans.trimLeft s).along_eq, htrim]
  rcases hterminator with rfl | rfl | rfl <;> rfl

/-- A value stands behind an equals sign, where no bracket counts. -/
theorem along_of_initialValue? {value : Option Text} (h : initialValue? s = some value) :
    along .outside s ≠ .inside := by
  rcases initialValue?_cases h with ⟨rfl, -⟩ | ⟨body, rfl, -, -⟩
  · decide
  · rw [along_cons]
    show along .behind (body ++ [.char ';']) ≠ .inside
    rw [along_behind]
    decide

end

/-! ## Declarations -/

section
variable {code : Text} {form : LineForm}

/-- A port closes all its ranges. -/
theorem along_of_port? (h : port? code = some form) : along .outside code ≠ .inside := by
  obtain ⟨⟨keyword, rest⟩, hkeyword, h⟩ := Option.bind_eq_some_iff.1 h
  have hend : ∀ {s rest terminator : Text}, Spans s rest → terminator? rest = some terminator →
      along .outside s ≠ .inside := by
    intro s rest terminator hspans hterminator
    rw [hspans.along_eq, along_of_terminator? hterminator]
    decide
  have hfront := spans_of_keyword? hkeyword
  rcases of_orElse h with h | ⟨-, h⟩
  · obtain ⟨⟨net, rest'⟩, hnet, h⟩ := Option.bind_eq_some_iff.1 h
    obtain ⟨⟨signing, range, names, rest''⟩, hvector, h⟩ := Option.bind_eq_some_iff.1 h
    obtain ⟨terminator, hterminator, -⟩ := Option.bind_eq_some_iff.1 h
    exact hend ((hfront.trans (spans_of_keyword? hnet)).trans (spans_of_vector? hvector))
      hterminator
  · obtain ⟨⟨signing, range, names, rest'⟩, hvector, h⟩ := Option.bind_eq_some_iff.1 h
    obtain ⟨terminator, hterminator, -⟩ := Option.bind_eq_some_iff.1 h
    exact hend (hfront.trans (spans_of_vector? hvector)) hterminator

/-- A signal closes the ranges in front of its value. -/
theorem along_of_signal? (h : signal? code = some form) : along .outside code ≠ .inside := by
  obtain ⟨⟨keyword, rest⟩, hkeyword, h⟩ := Option.bind_eq_some_iff.1 h
  obtain ⟨⟨signing, range, names, rest'⟩, hvector, h⟩ := Option.bind_eq_some_iff.1 h
  obtain ⟨value, hvalue, -⟩ := Option.bind_eq_some_iff.1 h
  have hspans := (((spans_of_keyword? hkeyword).trans (spans_of_vector? hvector)).trans
    (.trimLeft rest')).trans (spans_ranges _)
  rw [hspans.along_eq]
  exact along_of_initialValue? hvalue

/-- A parameter closes the ranges in front of its value. -/
theorem along_of_parameter? (h : parameter? code = some form) : along .outside code ≠ .inside := by
  obtain ⟨⟨keyword, rest⟩, hkeyword, h⟩ := Option.bind_eq_some_iff.1 h
  obtain ⟨⟨modifiers, name, value, terminator⟩, hmodified, -⟩ := Option.bind_eq_some_iff.1 h
  rw [(spans_of_keyword? hkeyword).along_eq, along_of_modified? hmodified]
  decide

end
end LineForm

/-! ## Cutting a line -/

namespace Place

/-- All slashes stand inside of ranges, and the ranges are closed. -/
structure Shields (s : Text) : Prop where
  along_eq : along .outside s = .outside
  inside : ∀ front behind, s = front ++ .char '/' :: behind → along .outside front = .inside

namespace Shields

variable {s t : Text}

/-- A plain text without slashes has nothing to shield. -/
theorem of_isPlain (h : ∀ c ∈ s, IsPlain c) (hslash : .char '/' ∉ s) : Shields s := by
  refine ⟨along_of_isPlain h .outside, fun front behind heq => absurd ?_ hslash⟩
  rw [heq]
  exact List.mem_append_right front List.mem_cons_self

/-- All slashes of a range stand inside of it. -/
theorem of_isRange (h : Range.IsRange s) : Shields s := by
  refine ⟨along_range h, fun front behind heq => ?_⟩
  obtain ⟨body, rfl, hbody⟩ := h
  cases front with
  | nil => cases heq
  | cons c front =>
      obtain ⟨rfl, hrest⟩ := List.cons.inj heq
      have hbodyFront : ∀ d ∈ front, d ∈ body := by
        rcases List.append_eq_append_iff.1 hrest with ⟨more, -, hmore⟩ | ⟨more, rfl, -⟩
        · have hmem : CodePoint.char '/' ∈ [CodePoint.char ']'] :=
            hmore ▸ List.mem_append_right more List.mem_cons_self
          exact absurd hmem (by decide)
        · exact fun d => List.mem_append_left more
      exact along_inside fun hmem => not_mem_of_isSquare hbody (hbodyFront _ hmem)

/-- Two shielded texts are shielded together, since the first one closes its ranges. -/
theorem append (hs : Shields s) (ht : Shields t) : Shields (s ++ t) := by
  refine ⟨by rw [along_append, hs.along_eq, ht.along_eq], fun front behind heq => ?_⟩
  rcases List.append_eq_append_iff.1 heq with ⟨more, rfl, hmore⟩ | ⟨more, hmore, hrest⟩
  · rw [along_append, hs.along_eq]
    exact ht.inside more behind hmore
  · cases more with
    | nil => cases ht.inside [] behind hrest.symm
    | cons c more =>
        obtain ⟨rfl, -⟩ := List.cons.inj hrest
        exact hs.inside front more hmore

end Shields

/-- A line whose slashes stand inside of ranges, up to a text in which no comment starts, is cut
inside of a range. -/
theorem along_before {s t : Text} (hs : Shields s) (ht : Text.includes t "//" = false)
    (h : Text.includes (s ++ t) "//") : along .outside (Text.before "//" (s ++ t)) = .inside := by
  obtain ⟨behind, hcut⟩ := Text.exists_cut (a := '/') (b := '/') ht h
  exact hs.inside _ behind hcut

/-- Blanks at the end do not move the place. -/
theorem along_trimRight (s : Text) (place : Place) :
    place.along (Text.trimRight s) = place.along s := by
  obtain ⟨back, hsplit, hback, -⟩ := Text.exists_trimRight s
  have hover := along_append place (Text.trimRight s) back
  rw [← hsplit] at hover
  rw [hover, along_of_isPlain fun c hc => isPlain_of_isBlank (hback c hc)]

end Place

/-! ## Fields with their slashes inside of ranges -/

namespace LineForm

open Scan Line Place

/-- The first word stays when a code is cut at two slashes. -/
theorem takeWhile_cut {word rest : Text} (hword : IsKeyword word) (hrest : Stops Text.isWord rest) :
    (Text.trimRight (Text.before "//" (word ++ rest))).takeWhile Text.isWord = word := by
  have hslash : .char '/' ∉ word := fun hmem => absurd (hword.2 _ hmem) (by decide)
  have hcut : Text.before "//" (word ++ rest) = word ++ Text.before "//" rest :=
    Text.before_append_of_not_mem hslash rest
  obtain ⟨back, hsplit, hback, -⟩ := Text.exists_trimRight (Text.before "//" rest)
  have hhead : Stops Text.isWord (Text.before "//" rest) := by
    rcases Text.head?_before (a := '/') (b := '/') rest with hnone | hsame
    · exact fun c hc => absurd (hnone.symm.trans hc) nofun
    · exact fun c hc => hrest c (hsame.symm.trans hc)
  rw [hsplit] at hhead
  have hend : Text.Ends Text.isBlank word := by
    refine Text.ends_of_stops hword.1 fun c hc => ?_
    rw [List.head?_reverse] at hc
    exact isBlank_eq_false (isNamePart_of_isWord (hword.2 c (List.mem_of_getLast? hc)))
  rw [hcut, Text.trimRight_append_of_ends hend, Text.takeWhile_append hword.2 hhead.left]

/-- The words that start declarations with ranges. -/
def declarationKeywords : List Text :=
  directions ++ signalKeywords ++ parameterKeywords

/-- No keyword of a declaration starts an assignment or a connection. -/
theorem of_mem_declarationKeywords : ∀ word ∈ declarationKeywords,
    IsKeyword word ∧ word ≠ ("assign" : Text) ∧ word.head? ≠ some (.char '.') := by
  decide

/-- What is cut inside of a range has no form. -/
theorem ofCode?_cut_ne {word rest : Text} (hmem : word ∈ declarationKeywords)
    (hrest : Stops Text.isWord rest)
    (hinside : along .outside (Text.before "//" (word ++ rest)) = .inside) (form : LineForm) :
    ofCode? (Text.trimRight (Text.before "//" (word ++ rest))) ≠ some form := by
  obtain ⟨hword, hassign, hdot⟩ := of_mem_declarationKeywords word hmem
  have hfirst := takeWhile_cut hword hrest
  have hplace := along_trimRight (Text.before "//" (word ++ rest)) .outside
  rw [hinside] at hplace
  intro hform
  rcases (of_ofCode? hform).2 with hfound | ⟨-, hfound | ⟨-, hfound | ⟨-, hfound | ⟨-, hfound⟩⟩⟩⟩
  · exact along_of_port? hfound hplace
  · exact along_of_signal? hfound hplace
  · exact along_of_parameter? hfound hplace
  · rw [assign?_eq_none (by rwa [hfirst])] at hfound
    cases hfound
  · rw [connection?_eq_none] at hfound
    · cases hfound
    · intro hhead
      obtain ⟨c, word, rfl⟩ := List.exists_cons_of_ne_nil hword.1
      obtain ⟨t, ht⟩ := List.head?_eq_some_iff.1 hhead
      rw [ht] at hfirst
      cases hfirst

/-! ## Fields in front of an equals sign -/

/-- A text that fills its columns as it stands: it has no tab and no line feed. -/
def IsFlat (s : Text) : Prop :=
  ∀ c ∈ s, c ≠ '\t' ∧ c ≠ '\n'

instance (s : Text) : Decidable (IsFlat s) :=
  inferInstanceAs (Decidable (∀ c ∈ s, c ≠ '\t' ∧ c ≠ '\n'))

/-- Two flat texts in a row are flat. -/
theorem isFlat_append {s t : Text} (hs : IsFlat s) (ht : IsFlat t) : IsFlat (s ++ t) :=
  List.forall_mem_append.2 ⟨hs, ht⟩

/-- A flat text with its slashes inside of ranges. -/
structure IsField (s : Text) : Prop where
  flat : IsFlat s
  shields : Shields s

namespace IsField

variable {s t : Text}

theorem append (hs : IsField s) (ht : IsField t) : IsField (s ++ t) :=
  ⟨isFlat_append hs.flat ht.flat, hs.shields.append ht.shields⟩

/-- Spaces are a field. -/
theorem spaces (n : Nat) : IsField (Text.spaces n) := by
  refine ⟨fun c hc => (Watch.isNeat_of_mem_spaces hc).flat, .of_isPlain (fun c hc => ?_)
    fun hmem => ?_⟩
  · exact isPlain_of_isBlank (Text.allBlank_spaces n c hc)
  · exact absurd (Text.allBlank_spaces n _ hmem) (by decide)

theorem nil : IsField [] :=
  spaces 0

/-- A field may have spaces in front. -/
theorem gapped (h : IsField s) (n : Nat) : IsField (gapped n s) := by
  rw [gapped_eq]
  exact (spaces _).append h

/-- The characters of names make up a field. -/
theorem of_isNamePart (h : ∀ c ∈ s, isNamePart c) : IsField s := by
  refine ⟨fun c hc => (Watch.isNeat_of_isNamePart (h c hc)).flat, .of_isPlain (fun c hc => ?_)
    fun hmem => ?_⟩
  · exact isPlain_of_isNamePart (h c hc)
  · exact absurd (h _ hmem) (by decide)

theorem of_isKeyword (h : IsKeyword s) : IsField s :=
  of_isNamePart fun c hc => isNamePart_of_isWord (h.2 c hc)

/-- A flat range is a field. -/
theorem of_isRange (h : Range.IsRange s) (hflat : IsFlat s) : IsField s :=
  ⟨hflat, .of_isRange h⟩

theorem of_isOptional (h : Range.IsOptional s) (hflat : IsFlat s) : IsField s := by
  rcases h with rfl | h
  · exact nil
  · exact of_isRange h hflat

/-- What ends a declaration is a field. -/
theorem of_isTerminator (h : IsTerminator s) : IsField s := by
  rcases h with rfl | rfl | rfl
  · exact nil
  · exact ⟨List.forall_mem_singleton.2 (by decide), .of_isPlain (by decide) (by decide)⟩
  · exact ⟨List.forall_mem_singleton.2 (by decide), .of_isPlain (by decide) (by decide)⟩

/-- A word that may be absent. -/
theorem of_optional {words : List Text} (h : s = [] ∨ s ∈ words)
    (hwords : ∀ word ∈ words, IsKeyword word) : IsField s := by
  rcases h with rfl | h
  · exact nil
  · exact of_isKeyword (hwords s h)

/-- Names with commas between them are a field. -/
theorem names {names : List Text} (h : ∀ name ∈ names, IsName name) :
    IsField (List.intercalate ", " names) := by
  cases names with
  | nil => exact nil
  | cons name names =>
      obtain ⟨hname, hnames⟩ := List.forall_mem_cons.1 h
      rw [Text.intercalate_cons]
      refine (of_isNamePart hname.forall_mem).append ?_
      clear h
      induction names with
      | nil => exact nil
      | cons next names ih =>
          obtain ⟨hnext, hnames⟩ := List.forall_mem_cons.1 hnames
          have hcomma : IsField (", " : Text) :=
            (of_isTerminator (.inr (.inl rfl))).append (spaces 1)
          exact (hcomma.append (of_isNamePart hnext.forall_mem)).append (ih hnames)

/-- Any number of fields in a row are a field. -/
theorem flatten {fields : List Text} (h : ∀ field ∈ fields, IsField field) :
    IsField fields.flatten := by
  induction fields with
  | nil => exact nil
  | cons field fields ih =>
      obtain ⟨hfield, hfields⟩ := List.forall_mem_cons.1 h
      exact hfield.append (ih hfields)

theorem of_isModifier (h : IsModifier s) (hflat : IsFlat s) : IsField s := by
  rcases h with h | h
  · exact of_isKeyword (isKeyword_of_mem_parameterTypes s h)
  · exact of_isRange h hflat

/-- Modifiers with spaces between them are a field. -/
theorem modifiers {modifiers : List Text} (h : ∀ m ∈ modifiers, IsField m) :
    IsField (spacedModifiers modifiers) := by
  induction modifiers with
  | nil => exact nil
  | cons modifier modifiers ih =>
      obtain ⟨hfirst, hothers⟩ := List.forall_mem_cons.1 h
      rw [spacedModifiers_cons]
      exact (spaces 1).append (hfirst.append (ih hothers))

end IsField
end LineForm
end VerilogLayout

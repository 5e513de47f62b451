import VerilogLayout.Proofs.Source.Range

/-!
# Scanners and what they leave behind

For each scanner there are two statements. One takes apart a text that was scanned: its fields are
well formed, and what was passed over does not count. The other scans a text that was put together
from well formed fields, as `keyword?_append`, `name?_append`, `range?_append`, `names?_append` and
`ranges_append` do, and finds the same fields again.
-/

namespace VerilogLayout.Scan

open Text (Stops AllBlank)

/-- A name as a scanner finds it. -/
def IsName : Text → Prop
  | [] => False
  | c :: s => isNameStart c ∧ ∀ d ∈ s, isNamePart d

/-- Names can be told from other texts. -/
instance : (s : Text) → Decidable (IsName s)
  | [] => .isFalse id
  | c :: s => inferInstanceAs (Decidable (isNameStart c ∧ ∀ d ∈ s, isNamePart d))

/-- Neither a range, a word nor a blank starts the text. -/
def Barren (s : Text) : Prop :=
  ∀ c ∈ s.head?, c ≠ '[' ∧ Text.isWord c = false ∧ Text.isBlank c = false

/-- `Passes s rest` holds if nothing counts in `s` before `rest`. -/
def Passes (s rest : Text) : Prop :=
  ∃ front, s = front ++ rest ∧ ∀ c ∈ front, Watch.IsMild c

namespace Passes

variable {s t u : Text}

theorem refl (s : Text) : Passes s s :=
  ⟨[], rfl, List.forall_mem_nil _⟩

theorem trans (h : Passes s t) (h' : Passes t u) : Passes s u := by
  obtain ⟨front, rfl, hfront⟩ := h
  obtain ⟨front', rfl, hfront'⟩ := h'
  exact ⟨front ++ front', (List.append_assoc front front' u).symm,
    List.forall_mem_append.2 ⟨hfront, hfront'⟩⟩

/-- Nothing counts in mild characters. -/
theorem mild_append {front : Text} (h : ∀ c ∈ front, Watch.IsMild c) (s : Text) :
    Passes (front ++ s) s :=
  ⟨front, rfl, h⟩

/-- Nothing counts in blanks. -/
theorem trimLeft (s : Text) : Passes s (Text.trimLeft s) := by
  obtain ⟨hsplit, hblank, -⟩ := Text.exists_run Text.isBlank s
  exact ⟨_, hsplit, fun c hc => Watch.isMild_of_isBlank (hblank c hc)⟩

/-- What does not count may be left out. -/
theorem mayBecome (h : Passes s t) : Watch.MayBecome s t := by
  obtain ⟨front, rfl, hfront⟩ := h
  exact .mild_append hfront (.refl t)

end Passes

namespace Barren

variable {s : Text}

theorem nil : Barren [] := by
  simp [Barren]

theorem cons {c : CodePoint} (h : c ≠ '[' ∧ Text.isWord c = false ∧ Text.isBlank c = false)
    (s : Text) : Barren (c :: s) := by
  intro d hd
  obtain rfl := Option.some.inj hd
  exact h

/-- A barren text has no blanks in front. -/
theorem trimLeft_eq (h : Barren s) : Text.trimLeft s = s :=
  Text.trimLeft_eq_self fun c hc => (h c hc).2.2

theorem head_ne (h : Barren s) : ∀ c ∈ s.head?, c ≠ '[' :=
  fun c hc => (h c hc).1

end Barren

/-! ## Names -/

theorem isWord_of_isNameStart {c : CodePoint} (h : isNameStart c) : Text.isWord c := by
  rw [isNameStart, Bool.or_eq_true, decide_eq_true_eq] at h
  rcases h with halpha | rfl
  · cases c with
    | surrogate place => cases halpha
    | char c =>
        rw [CodePoint.isAlpha, CodePoint.isIn_char] at halpha
        refine Text.isWord_of_isAlphanum ?_
          (by simp [CodePoint.isAlphanum, Char.isAlphanum, halpha])
        have hletter : (c.isUpper || c.isLower) = true := halpha
        show c.val.toNat < 128
        rcases Bool.or_eq_true_iff.1 hletter with hupper | hlower
        · have hle : c.val ≤ 'Z'.val := (of_decide_eq_true hupper).2
          exact Nat.lt_of_le_of_lt (UInt32.le_iff_toNat_le.1 hle) (by decide)
        · have hbounds : (decide (c.val ≥ 'a'.val) && decide (c.val ≤ 'z'.val)) = true := hlower
          have hle : c.val ≤ 'z'.val := of_decide_eq_true (Bool.and_eq_true_iff.1 hbounds).2
          exact Nat.lt_of_le_of_lt (UInt32.le_iff_toNat_le.1 hle) (by decide)
  · rfl

/-- Names may hold all characters of words. -/
theorem isNamePart_of_isWord {c : CodePoint} (h : Text.isWord c) : isNamePart c := by
  rw [isNamePart, h, Bool.true_or]

/-- No name holds a blank. -/
theorem isBlank_eq_false {c : CodePoint} (h : isNamePart c) : Text.isBlank c = false := by
  rw [Bool.eq_false_iff]
  intro hblank
  rw [isNamePart, Text.isWord_eq_false hblank, Bool.false_or, decide_eq_true_eq] at h
  rw [h] at hblank
  cases hblank

theorem IsName.forall_mem {name : Text} (h : IsName name) : ∀ c ∈ name, isNamePart c := by
  cases name with
  | nil => exact h.elim
  | cons c s =>
      refine List.forall_mem_cons.2 ⟨?_, h.2⟩
      exact isNamePart_of_isWord (isWord_of_isNameStart h.1)

theorem IsName.ne_nil {name : Text} (h : IsName name) : name ≠ [] := by
  rintro rfl
  exact h

/-- A name starts with no blank, whatever stands behind it. -/
theorem IsName.stops {name rest : Text} (h : IsName name) : Stops Text.isBlank (name ++ rest) :=
  Text.stops_append_of_ne_nil h.ne_nil
    (fun c hc => isBlank_eq_false (h.forall_mem c (List.mem_of_mem_head? hc))) rest

/-- A name is read up to where it stops. -/
theorem name?_append {name rest : Text} (h : IsName name) (hrest : Stops isNamePart rest) :
    name? (name ++ rest) = some (name, rest) := by
  cases name with
  | nil => exact h.elim
  | cons c s =>
      rw [List.cons_append, name?, if_pos h.1, Text.takeWhile_append h.2 hrest,
        Text.dropWhile_append h.2 hrest]

/-- What is read as a name is one. -/
theorem isName_of_name? {s name rest : Text} (h : name? s = some (name, rest)) : IsName name := by
  cases s with
  | nil => cases h
  | cons c s =>
      rw [name?] at h
      split at h
      · next hstart =>
          obtain ⟨rfl, -⟩ := Prod.mk.inj (Option.some.inj h)
          exact ⟨hstart, fun d hd => List.mem_takeWhile_imp hd⟩
      · cases h

/-- Nothing counts in a name. -/
theorem passes_of_name? {s name rest : Text} (h : name? s = some (name, rest)) :
    Passes s rest := by
  have hname := isName_of_name? h
  rw [← append_of_name? h]
  exact .mild_append (fun c hc => Watch.isMild_of_isNamePart (hname.forall_mem c hc)) rest

/-- No name starts a barren text. -/
theorem name?_eq_none {s : Text} (h : Barren s) : name? s = none := by
  cases s with
  | nil => rfl
  | cons c s =>
      refine if_neg fun hstart => ?_
      have hword := (h c rfl).2.1
      rw [isWord_of_isNameStart hstart] at hword
      cases hword

/-! ## Words -/

theorem takeWhile_isWord {s : Text} (h : Barren s) : s.takeWhile Text.isWord = [] :=
  Text.takeWhile_eq_nil fun c hc => (h c hc).2.1

/-- A keyword is read together with the blanks behind it. -/
theorem keyword?_append {keywords : List Text} {word rest : Text} (hmem : word ∈ keywords)
    (hword : ∀ c ∈ word, Text.isWord c) (hrest : Stops Text.isWord rest) :
    keyword? keywords (word ++ rest) = some (word, Text.trimLeft rest) := by
  have hcontains : keywords.contains word := List.contains_iff_mem.2 hmem
  rw [keyword?, Text.takeWhile_append hword hrest, Text.dropWhile_append hword hrest]
  exact if_pos hcontains

/-- A first word that is none of the keywords is not read as one. -/
theorem keyword?_eq_none {keywords : List Text} {s : Text}
    (h : s.takeWhile Text.isWord ∉ keywords) : keyword? keywords s = none := by
  refine if_neg fun hcontains => h ?_
  exact List.contains_iff_mem.1 hcontains

/-- A keyword ends where the word ends, and the blanks behind it are passed over. -/
theorem of_keyword? {keywords : List Text} {s word rest : Text}
    (h : keyword? keywords s = some (word, rest)) :
    word ∈ keywords ∧ (∀ c ∈ word, Text.isWord c) ∧
      ∃ behind, s = word ++ behind ∧ Stops Text.isWord behind ∧ rest = Text.trimLeft behind := by
  rw [keyword?] at h
  split at h
  · next hcontains =>
      obtain ⟨rfl, rfl⟩ := Prod.mk.inj (Option.some.inj h)
      obtain ⟨hsplit, hword, hstops⟩ := Text.exists_run Text.isWord s
      exact ⟨List.contains_iff_mem.1 hcontains, hword, _, hsplit, hstops, rfl⟩
  · cases h

/-- Nothing counts in a keyword and the blanks behind it. -/
theorem passes_of_keyword? {keywords : List Text} {s word rest : Text}
    (h : keyword? keywords s = some (word, rest)) : Passes s rest := by
  obtain ⟨-, hword, behind, rfl, -, rfl⟩ := of_keyword? h
  exact (Passes.mild_append (fun c hc => Watch.isMild_of_isWord (hword c hc)) behind).trans
    (.trimLeft behind)

/-! ## Ranges -/

/-- A range is read up to the bracket that closes it. -/
theorem range?_append {range : Text} (h : Range.IsRange range) (rest : Text) :
    range? (range ++ rest) = some (range, rest) := by
  obtain ⟨body, rfl, hbody⟩ := h
  have hrun : ∀ c ∈ body, (!isSquare c) = true := fun c hc => by rw [hbody c hc, Bool.not_false]
  have hstops : Stops (!isSquare ·) (.char ']' :: rest) := Text.stops_cons.2 rfl
  have happend : .char '[' :: (body ++ [.char ']']) ++ rest =
      .char '[' :: (body ++ .char ']' :: rest) := by simp
  rw [happend, range?, Text.dropWhile_append hrun hstops, Text.takeWhile_append hrun hstops]
  rfl

/-- What is read as a range is one. -/
theorem isRange_of_range? {s range rest : Text} (h : range? s = some (range, rest)) :
    Range.IsRange range := by
  unfold range? at h
  split at h
  · next s =>
      split at h
      · obtain ⟨rfl, -⟩ := Prod.mk.inj (Option.some.inj h)
        refine ⟨_, rfl, fun c hc => ?_⟩
        simpa using List.mem_takeWhile_imp hc
      · cases h
  · cases h

/-- Without a bracket in front there is no range. -/
theorem range?_eq_none {s : Text} (h : ∀ c ∈ s.head?, c ≠ '[') : range? s = none := by
  cases s with
  | nil => rfl
  | cons c s =>
      unfold range?
      split
      · next heq =>
          obtain ⟨rfl, -⟩ := List.cons_eq_cons.1 heq
          exact absurd rfl (h _ rfl)
      · rfl

theorem ranges_eq {s : Text} (h : range? s = none) : ranges s = ([], s) := by
  unfold ranges
  split
  · next heq =>
      rw [h] at heq
      cases heq
  · rfl

/-- Ranges are read one behind the other, over the blanks between them. -/
theorem ranges_of_range? {s range rest : Text} (h : range? s = some (range, rest)) :
    ranges s = (range :: (ranges (Text.trimLeft rest)).1, (ranges (Text.trimLeft rest)).2) := by
  rw [ranges]
  split
  · next heq =>
      rw [h] at heq
      obtain ⟨rfl, rfl⟩ := Prod.mk.inj (Option.some.inj heq)
      rfl
  · next heq =>
      rw [h] at heq
      cases heq

/-- Ranges without gaps between them are found again. -/
theorem ranges_append {list : List Text} (hlist : ∀ range ∈ list, Range.IsRange range)
    {rest : Text} (hrest : range? (Text.trimLeft rest) = none) :
    ranges (Text.trimLeft (list.flatten ++ rest)) = (list, Text.trimLeft rest) := by
  induction list with
  | nil => exact ranges_eq hrest
  | cons range list ih =>
      obtain ⟨hrange, hlist⟩ := List.forall_mem_cons.1 hlist
      have hstops : Stops Text.isBlank (range ++ (list.flatten ++ rest)) := by
        obtain ⟨body, rfl, -⟩ := hrange
        exact Text.stops_cons.2 rfl
      rw [List.flatten_cons, List.append_assoc, Text.trimLeft_eq_self hstops,
        ranges_of_range? (range?_append hrange _), ih hlist]

/-- Ranges may be written without the blanks between them. -/
theorem of_ranges (s : Text) :
    (∀ range ∈ (ranges s).1, Range.IsRange range) ∧
      Watch.MayBecome s ((ranges s).1.flatten ++ (ranges s).2) := by
  fun_induction ranges s with
  | case1 s range rest hrange list rest' hrec ih =>
      rw [hrec] at ih
      have hsquare := isRange_of_range? hrange
      refine ⟨List.forall_mem_cons.2 ⟨hsquare, ih.1⟩, ?_⟩
      rw [← append_of_range? hrange, List.flatten_cons, List.append_assoc]
      exact .append (.refl range) (Range.endsPlain_of_isRange hsquare)
        ((Passes.trimLeft rest).mayBecome.trans ih.2)
  | case2 s hrange => exact ⟨List.forall_mem_nil _, .refl s⟩

/-! ## Lists of names -/

/-- Without a name behind a comma there are no more names. -/
theorem moreNames_eq {s : Text}
    (h : ∀ t, Text.trimLeft s = .char ',' :: t → name? (Text.trimLeft t) = none) :
    moreNames s = ([], s) := by
  unfold moreNames
  split
  · next t hcomma =>
      split
      · next heq =>
          rw [h t hcomma] at heq
          cases heq
      · rfl
  · rfl

/-- Behind a comma the names are read as at the start. -/
theorem moreNames_comma {s rest : Text} {names : List Text}
    (h : names? (Text.trimLeft s) = some (names, rest)) :
    moreNames (.char ',' :: s) = (names, rest) := by
  have hcomma : Text.trimLeft (.char ',' :: s) = .char ',' :: s :=
    Text.trimLeft_eq_self (Text.stops_cons.2 rfl)
  rw [names?] at h
  split at h
  · next name behind hname =>
      rw [moreNames]
      split
      · next t heq =>
          rw [hcomma] at heq
          obtain ⟨-, rfl⟩ := List.cons_eq_cons.1 heq
          split
          · next heq =>
              rw [hname] at heq
              obtain ⟨rfl, rfl⟩ := Prod.mk.inj (Option.some.inj heq)
              exact Option.some.inj h
          · next heq =>
              rw [hname] at heq
              cases heq
      · next hnone => exact absurd hcomma (hnone s)
  · cases h

theorem exists_intercalate (separator s : Text) (rest : List Text) :
    ∃ t, List.intercalate separator (s :: rest) = s ++ t :=
  ⟨_, Text.intercalate_cons separator s rest⟩

/-- Names that a scanner finds in front of a text. -/
structure NamesBefore (names : List Text) (rest : Text) : Prop where
  ne_nil : names ≠ []
  isName : ∀ name ∈ names, IsName name
  stops : Stops isNamePart rest
  more : moreNames rest = ([], rest)

/-- A list of names starts with a character of a name. -/
theorem isNamePart_head {names : List Text} (hne : names ≠ [])
    (hnames : ∀ name ∈ names, IsName name) (rest : Text) :
    ∀ c ∈ (List.intercalate ", " names ++ rest).head?, isNamePart c := by
  obtain ⟨name, names, rfl⟩ := List.exists_cons_of_ne_nil hne
  obtain ⟨t, ht⟩ := exists_intercalate ", " name names
  obtain ⟨hname, -⟩ := List.forall_mem_cons.1 hnames
  obtain ⟨c, s, rfl⟩ := List.exists_cons_of_ne_nil hname.ne_nil
  rw [ht]
  intro d hd
  obtain rfl := Option.some.inj hd
  exact hname.forall_mem _ List.mem_cons_self

/-- A name in front shows in the first character. -/
theorem IsName.head {name : Text} (h : IsName name) (rest : Text) :
    ∀ c ∈ (name ++ rest).head?, isNamePart c := by
  have hhead := isNamePart_head (List.cons_ne_nil name []) (List.forall_mem_singleton.2 h) rest
  rwa [List.intercalate_singleton] at hhead

/-- A list of names is no empty text. -/
theorem intercalate_ne_nil {names : List Text} (hne : names ≠ [])
    (hnames : ∀ name ∈ names, IsName name) :
    List.intercalate ", " names ≠ [] := by
  obtain ⟨name, names, rfl⟩ := List.exists_cons_of_ne_nil hne
  obtain ⟨t, ht⟩ := exists_intercalate ", " name names
  rw [ht]
  exact List.append_ne_nil_of_left_ne_nil (hnames name List.mem_cons_self).ne_nil t

/-- A list of names ends with a character of a name. -/
theorem isNamePart_last {names : List Text} (hne : names ≠ [])
    (hnames : ∀ name ∈ names, IsName name) :
    ∀ c ∈ (List.intercalate ", " names).getLast?, isNamePart c := by
  induction names with
  | nil => exact absurd rfl hne
  | cons name names ih =>
      obtain ⟨hname, hnames⟩ := List.forall_mem_cons.1 hnames
      cases names with
      | nil =>
          rw [List.intercalate_singleton]
          exact fun c hc => hname.forall_mem c (List.mem_of_getLast? hc)
      | cons next others =>
          have hrest := ih (List.cons_ne_nil next others) hnames
          have hnext := intercalate_ne_nil (List.cons_ne_nil next others) hnames
          intro c hc
          rw [List.intercalate_cons_cons, List.getLast?_append] at hc
          rcases Option.or_eq_some_iff.1 hc with hc | ⟨hnil, -⟩
          · exact hrest c hc
          · exact absurd (List.getLast?_eq_none_iff.1 hnil) hnext

/-- Names with commas between them are found again. -/
theorem names?_append {names : List Text} {rest : Text} (h : NamesBefore names rest) :
    names? (List.intercalate ", " names ++ rest) = some (names, rest) := by
  obtain ⟨hne, hnames, hrest, hmore⟩ := h
  induction names with
  | nil => exact absurd rfl hne
  | cons name names ih =>
      obtain ⟨hname, hnames⟩ := List.forall_mem_cons.1 hnames
      cases names with
      | nil =>
          rw [List.intercalate_singleton, names?, name?_append hname hrest]
          dsimp only
          rw [hmore]
      | cons next others =>
          have hne := List.cons_ne_nil next others
          have hnext := ih hne hnames
          have hstops : Stops Text.isBlank (List.intercalate ", " (next :: others) ++ rest) :=
            fun c hc => isBlank_eq_false (isNamePart_head hne hnames rest c hc)
          have hcomma : moreNames
              (.char ',' :: .char ' ' :: (List.intercalate ", " (next :: others) ++ rest)) =
              (next :: others, rest) := by
            refine moreNames_comma ?_
            rw [← hnext]
            exact congrArg names? (Text.trimLeft_append (Text.allBlank_spaces 1) hstops)
          have hend : Stops isNamePart
              (.char ',' :: .char ' ' :: (List.intercalate ", " (next :: others) ++ rest)) :=
            Text.stops_cons.2 rfl
          have hscan := name?_append hname hend
          have hpair : ∀ t, (", " : Text) ++ t = .char ',' :: .char ' ' :: t := fun _ => rfl
          rw [List.intercalate_cons_cons, List.append_assoc, List.append_assoc, hpair, names?,
            hscan]
          exact congrArg (fun more => some (name :: more.1, more.2)) hcomma

/-- What is read behind a name are names, and nothing counts between them. -/
theorem of_moreNames (s : Text) :
    (∀ name ∈ (moreNames s).1, IsName name) ∧ Passes s (moreNames s).2 := by
  fun_induction moreNames s with
  | case1 s t hcomma name rest hname names rest' hrec ih =>
      rw [hrec] at ih
      refine ⟨List.forall_mem_cons.2 ⟨isName_of_name? hname, ih.1⟩, ?_⟩
      have hfront := Passes.trimLeft s
      rw [hcomma] at hfront
      have hmild : ∀ c ∈ [.char ','], Watch.IsMild c := by decide
      exact (((hfront.trans (.mild_append hmild t)).trans (.trimLeft t)).trans
        (passes_of_name? hname)).trans ih.2
  | case2 s t hcomma hname => exact ⟨List.forall_mem_nil _, .refl s⟩
  | case3 s hcomma => exact ⟨List.forall_mem_nil _, .refl s⟩

/-- One or more names are read, and nothing counts in them. -/
theorem of_names? {s rest : Text} {names : List Text} (h : names? s = some (names, rest)) :
    names ≠ [] ∧ (∀ name ∈ names, IsName name) ∧ Passes s rest := by
  rw [names?] at h
  split at h
  · next name behind hname =>
      obtain ⟨rfl, rfl⟩ := Prod.mk.inj (Option.some.inj h)
      obtain ⟨hnames, hpasses⟩ := of_moreNames behind
      exact ⟨List.cons_ne_nil _ _, List.forall_mem_cons.2 ⟨isName_of_name? hname, hnames⟩,
        (passes_of_name? hname).trans hpasses⟩
  · cases h

end VerilogLayout.Scan

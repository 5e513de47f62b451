import VerilogLayout.Proofs.Json.Number

/-!
# Reading a value

`read?_of_isDocument` says that every spelling of a value is read as that value where there is room
for its brackets. Items and entries
end at a comma or a bracket, and white space may stand in front of these, which is what `IsEnd`
says of the text behind a value. The three readers call each other with one unit of fuel less, so
the induction is on the fuel for all three at once; a spelling is longer than it is deep, and its
length is fuel enough.
-/

namespace VerilogLayout.Json

open Text (Stops stops_cons stops_nil)

/-- A character with which no value goes on. -/
def endsValue (c : CodePoint) : Bool :=
  isSpace c || c == ',' || c == ']' || c == '\x7d'

/-- The text is over or goes on behind a value. -/
def IsEnd (s : Text) : Prop :=
  ∀ c ∈ s.head?, endsValue c = true

/-- A character with which a literal or a number begins. -/
def startsScalar (c : CodePoint) : Bool :=
  c.isDigit || ("-ntfNI" : Text).contains c

/-- A character with which a value begins. -/
def startsValue (c : CodePoint) : Bool :=
  startsScalar c || ("\"[\x7b" : Text).contains c

/-- No number goes on behind a value. -/
theorem IsEnd.stops {s : Text} (h : IsEnd s) : Stops continuesNumber s := by
  intro c hc
  have hend := h c hc
  simp only [endsValue, isSpace, Bool.or_eq_true, beq_iff_eq, decide_eq_true_eq] at hend
  rcases hend with (((((rfl | rfl) | rfl) | rfl) | rfl) | rfl) | rfl <;> rfl

theorem isEnd_cons {c : CodePoint} {s : Text} (h : endsValue c = true) : IsEnd (c :: s) := by
  simpa [IsEnd] using h

/-- A value may end in the gap in front of what ends it. -/
theorem isEnd_append {gap s : Text} (hgap : IsGap gap) (hs : IsEnd s) : IsEnd (gap ++ s) := by
  cases gap with
  | nil => exact hs
  | cons c gap =>
    intro d hd
    obtain rfl : c = d := by simpa using hd
    simp [endsValue, hgap c List.mem_cons_self]

theorem isEnd_gap {gap : Text} (h : IsGap gap) : IsEnd gap := by
  simpa using isEnd_append h (s := []) nofun

/-- White space in front of anything else is skipped. -/
theorem skipSpace_append {gap s : Text} (hgap : IsGap gap) (hs : Stops isSpace s) :
    skipSpace (gap ++ s) = s :=
  Text.dropWhile_append hgap hs

/-- A number begins with a digit behind its sign. -/
theorem SpellsNumber.exists_digit {s : Text} {value : Value} (h : SpellsNumber s value) :
    ∃ negative c t, s = sign negative ++ c :: t ∧ c.isDigit = true := by
  have hdigits : ∀ n, ∃ c t, Text.ofNat n = c :: t ∧ c.isDigit = true := by
    intro n
    have hall := (isDigits_toDigits n).isDigit_of_mem
    obtain ⟨c, t, ht⟩ := List.exists_cons_of_ne_nil (isDigits_toDigits n).ne_nil
    rw [ht] at hall
    exact ⟨c, t.map .char, by rw [Text.ofNat, ht]; rfl, hall c List.mem_cons_self⟩
  cases h with
  | @int negative n _ =>
    obtain ⟨c, t, ht, hc⟩ := hdigits n
    exact ⟨negative, c, t, by rw [ht], hc⟩
  | @float negative n fraction exponent _ _ _ _ _ =>
    obtain ⟨c, t, ht, hc⟩ := hdigits n
    exact ⟨negative, c, t ++ (fraction ++ exponent), by rw [ht]; rfl, hc⟩

/-- A number is none of the literals. -/
theorem readScalar_of_number {s : Text} {value : Value} (h : SpellsNumber s value) {rest : Text}
    (hrest : IsEnd rest) : readScalar (s ++ rest) = .ok (value, rest) := by
  have hread := readNumber_of_spells h hrest.stops
  obtain ⟨negative, c, t, rfl, hc⟩ := h.exists_digit
  have hne : ∀ d : CodePoint, d.isDigit = false → (d == c) = false := by
    intro d hd
    rw [beq_eq_false_iff_ne]
    rintro rfl
    rw [hc] at hd
    exact Bool.noConfusion hd
  have hfind : (literals.find? fun literal =>
      Text.startsWith (sign negative ++ c :: t ++ rest) literal.1) = none := by
    cases negative <;>
      simp [literals, sign, Text.startsWith, List.isPrefixOf, hne '-' rfl, hne 'n' rfl, hne 't' rfl,
        hne 'f' rfl, hne 'N' rfl, hne 'I' rfl]
  rw [readScalar, hfind, hread]

/-- A literal is read as its value, whatever follows. -/
theorem readScalar_of_literal {name : Text} {value : Value} (h : (name, value) ∈ literals)
    (rest : Text) : readScalar (name ++ rest) = .ok (value, rest) := by
  simp only [literals, List.mem_cons, Prod.mk.injEq, List.not_mem_nil, or_false] at h
  rcases h with ⟨rfl, rfl⟩ | ⟨rfl, rfl⟩ | ⟨rfl, rfl⟩ | ⟨rfl, rfl⟩ | ⟨rfl, rfl⟩ | ⟨rfl, rfl⟩ <;> rfl

/-- The name of a literal starts a scalar. -/
theorem exists_cons_of_literal {name : Text} {value : Value} (h : (name, value) ∈ literals) :
    ∃ c t, name = c :: t ∧ startsScalar c = true := by
  simp only [literals, List.mem_cons, Prod.mk.injEq, List.not_mem_nil, or_false] at h
  rcases h with ⟨rfl, -⟩ | ⟨rfl, -⟩ | ⟨rfl, -⟩ | ⟨rfl, -⟩ | ⟨rfl, -⟩ | ⟨rfl, -⟩ <;>
    exact ⟨_, _, rfl, rfl⟩

/-- A number starts a scalar. -/
theorem SpellsNumber.exists_cons {s : Text} {value : Value} (h : SpellsNumber s value) :
    ∃ c t, s = c :: t ∧ startsScalar c = true := by
  obtain ⟨negative, c, t, rfl, hc⟩ := h.exists_digit
  cases negative with
  | true => exact ⟨'-', c :: t, rfl, rfl⟩
  | false => exact ⟨c, t, rfl, by rw [startsScalar, hc, Bool.true_or]⟩

/-- The first character of a value shows that it is one. -/
theorem Spells.exists_cons {depth : Nat} {s : Text} {value : Value} (h : Spells depth s value) :
    ∃ c t, s = c :: t ∧ startsValue c = true := by
  have hscalar : (∃ c t, s = c :: t ∧ startsScalar c = true) →
      ∃ c t, s = c :: t ∧ startsValue c = true := by
    rintro ⟨c, t, hs, hc⟩
    exact ⟨c, t, hs, by rw [startsValue, hc, Bool.true_or]⟩
  cases h with
  | literal h => exact hscalar (exists_cons_of_literal h)
  | number h => exact hscalar h.exists_cons
  | text h =>
    obtain ⟨_⟩ := h
    exact ⟨_, _, rfl, rfl⟩
  | emptyList _ => exact ⟨_, _, rfl, rfl⟩
  | list _ => exact ⟨_, _, rfl, rfl⟩
  | emptyTable _ => exact ⟨_, _, rfl, rfl⟩
  | table _ => exact ⟨_, _, rfl, rfl⟩

/-- No white space begins a value. -/
theorem isSpace_of_startsValue {c : CodePoint} (h : startsValue c = true) : isSpace c = false := by
  have hne : ∀ d, startsValue d = false → c ≠ d := by
    rintro _ hd rfl
    exact Bool.false_ne_true (hd.symm.trans h)
  simp [isSpace, hne ' ' rfl, hne '\t' rfl, hne '\n' rfl, hne '\r' rfl]

/-- A value stands behind the white space in front of it. -/
theorem Spells.skipSpace_append {depth : Nat} {gap s : Text} {value : Value} (hgap : IsGap gap)
    (h : Spells depth s value) (rest : Text) : skipSpace (gap ++ (s ++ rest)) = s ++ rest := by
  obtain ⟨c, t, rfl, hc⟩ := h.exists_cons
  exact Json.skipSpace_append hgap (stops_cons.2 (isSpace_of_startsValue hc))

/-- So does a name. -/
theorem SpellsString.skipSpace_append {gap string name : Text} (hgap : IsGap gap)
    (h : SpellsString string name) (rest : Text) :
    skipSpace (gap ++ (string ++ rest)) = string ++ rest := by
  obtain ⟨_⟩ := h
  exact Json.skipSpace_append hgap (stops_cons.2 rfl)

/-- Items do not begin with the closing bracket. -/
theorem SpellsItems.skipSpace_ne {depth : Nat} {s : Text} {items : List Value}
    (h : SpellsItems depth s items) (rest t : Text) : skipSpace (s ++ rest) ≠ .char ']' :: t := by
  have hvalue : ∀ {front s value} (back : Text), IsGap front → Spells depth s value →
      skipSpace (front ++ (s ++ back)) ≠ .char ']' :: t := by
    intro front s value back hfront h
    rw [h.skipSpace_append hfront]
    obtain ⟨c, s, rfl, hc⟩ := h.exists_cons
    intro heq
    obtain ⟨rfl, -⟩ := List.cons.inj heq
    exact Bool.false_ne_true hc
  cases h with
  | last hfront h _ =>
    simp only [List.append_assoc]
    exact hvalue _ hfront h
  | more hfront h _ _ =>
    simp only [List.append_assoc]
    exact hvalue _ hfront h

/-- Entries do not begin with the closing brace. -/
theorem SpellsEntries.skipSpace_ne {depth : Nat} {s : Text} {entries : List (Text × Value)}
    (h : SpellsEntries depth s entries) (rest t : Text) :
    skipSpace (s ++ rest) ≠ .char '\x7d' :: t := by
  have hname : ∀ {front string name} (back : Text), IsGap front → SpellsString string name →
      skipSpace (front ++ (string ++ back)) ≠ .char '\x7d' :: t := by
    intro front string name back hfront h
    rw [h.skipSpace_append hfront]
    obtain ⟨_⟩ := h
    exact fun heq => absurd (List.cons.inj heq).1 (by decide)
  cases h with
  | last hfront h _ _ _ _ =>
    simp only [List.append_assoc]
    exact hname _ hfront h
  | more hfront h _ _ _ _ _ =>
    simp only [List.append_assoc]
    exact hname _ hfront h

section Step

variable {room fuel : Nat}

/-- What begins like a literal or a number is read as one. -/
theorem readValue_scalar {c : CodePoint} (h : startsScalar c = true) (s : Text) :
    readValue room (fuel + 1) (c :: s) = readScalar (c :: s) := by
  have hne : ∀ d, startsScalar d = false → c ≠ d := by
    rintro _ hd rfl
    exact Bool.false_ne_true (hd.symm.trans h)
  rw [readValue]
  · exact fun _ heq => hne '"' rfl (List.cons.inj heq).1
  · exact fun _ heq => hne '\x7b' rfl (List.cons.inj heq).1
  · exact fun _ heq => hne '[' rfl (List.cons.inj heq).1

/-- A bracket with anything but a closing one behind it opens items. -/
theorem readValue_items {after : Text} (h : ∀ t, skipSpace after ≠ .char ']' :: t) :
    readValue (room + 1) (fuel + 1) (.char '[' :: after) =
      (readItems room fuel (skipSpace after)).map fun (items, rest) => (.list items, rest) := by
  rw [readValue, ReadError.entering_one]
  split
  · next heq => exact absurd heq (h _)
  · rfl

/-- A brace with anything but a closing one behind it opens entries. -/
theorem readValue_entries {after : Text} (h : ∀ t, skipSpace after ≠ .char '\x7d' :: t) :
    readValue (room + 1) (fuel + 1) (.char '\x7b' :: after) =
      (readEntries room fuel (skipSpace after)).map fun (entries, rest) =>
        (.table (Table.ofEntries entries), rest) := by
  rw [readValue, ReadError.entering_one]
  split
  · next heq => exact absurd heq (h _)
  · rfl

/-- An item with the closing bracket behind it is the last one. -/
theorem readItems_last {s rest after : Text} {value : Value}
    (hvalue : readValue room fuel s = .ok (value, rest))
    (hrest : skipSpace rest = .char ']' :: after) :
    readItems room (fuel + 1) s = .ok ([value], after) := by
  simp only [readItems, bind, Except.bind, hvalue, hrest]

/-- An item with a comma behind it is read with the items that follow. -/
theorem readItems_more {s rest after last : Text} {value : Value} {items : List Value}
    (hvalue : readValue room fuel s = .ok (value, rest))
    (hrest : skipSpace rest = .char ',' :: after)
    (hmore : readItems room fuel (skipSpace after) = .ok (items, last)) :
    readItems room (fuel + 1) s = .ok (value :: items, last) := by
  simp only [readItems, bind, Except.bind, hvalue, hrest, hmore]

section Entry

variable {string name before s rest after : Text} {value : Value}

/-- An entry with the closing brace behind it is the last one. -/
theorem readEntries_last (hname : SpellsString string name) (hbefore : IsGap before)
    (hvalue : readValue room fuel (skipSpace s) = .ok (value, rest))
    (hrest : skipSpace rest = .char '\x7d' :: after) :
    readEntries room (fuel + 1) (string ++ (before ++ .char ':' :: s)) =
      .ok ([(name, value)], after) := by
  have hcolon : skipSpace (before ++ .char ':' :: s) = .char ':' :: s :=
    skipSpace_append hbefore (stops_cons.2 rfl)
  obtain ⟨body, heq, hread⟩ := readString_of_spells hname
    (string ++ (before ++ .char ':' :: s)) (before ++ .char ':' :: s)
  rw [heq] at hread ⊢
  simp only [readEntries, bind, Except.bind, hread, hcolon, hvalue, hrest]

/-- An entry with a comma behind it is read with the entries that follow. -/
theorem readEntries_more {last : Text} {entries : List (Text × Value)}
    (hname : SpellsString string name) (hbefore : IsGap before)
    (hvalue : readValue room fuel (skipSpace s) = .ok (value, rest))
    (hrest : skipSpace rest = .char ',' :: after)
    (hmore : readEntries room fuel (skipSpace after) = .ok (entries, last)) :
    readEntries room (fuel + 1) (string ++ (before ++ .char ':' :: s)) =
      .ok ((name, value) :: entries, last) := by
  have hcolon : skipSpace (before ++ .char ':' :: s) = .char ':' :: s :=
    skipSpace_append hbefore (stops_cons.2 rfl)
  obtain ⟨body, heq, hread⟩ := readString_of_spells hname
    (string ++ (before ++ .char ':' :: s)) (before ++ .char ':' :: s)
  rw [heq] at hread ⊢
  simp only [readEntries, bind, Except.bind, hread, hcolon, hvalue, hrest, hmore]

end Entry

end Step

/-- This much fuel reads every value whose spelling is no longer. -/
def ReadsValues (fuel : Nat) : Prop :=
  ∀ ⦃depth s value⦄ rest, Spells depth s value → IsEnd rest → s.length ≤ fuel →
    readValue depth fuel (s ++ rest) = .ok (value, rest)

/-- This much fuel reads all items whose spelling is shorter. -/
def ReadsItems (fuel : Nat) : Prop :=
  ∀ ⦃depth s items⦄ rest, SpellsItems depth s items → s.length < fuel →
    readItems depth fuel (skipSpace (s ++ .char ']' :: rest)) = .ok (items, rest)

/-- This much fuel reads all entries whose spelling is shorter. -/
def ReadsEntries (fuel : Nat) : Prop :=
  ∀ ⦃depth s entries⦄ rest, SpellsEntries depth s entries → s.length < fuel →
    readEntries depth fuel (skipSpace (s ++ .char '\x7d' :: rest)) = .ok (entries, rest)

section Fuel

variable {fuel : Nat}

/-- With fuel for lists and tables inside, values are read. -/
theorem readsValues_succ (hitems : ReadsItems fuel) (hentries : ReadsEntries fuel) :
    ReadsValues (fuel + 1) := by
  intro depth s value rest h hrest hfuel
  cases h with
  | literal h =>
    have hread := readScalar_of_literal h rest
    obtain ⟨c, t, rfl, hc⟩ := exists_cons_of_literal h
    rw [List.cons_append, readValue_scalar hc]
    exact hread
  | number h =>
    have hread := readScalar_of_number h hrest
    obtain ⟨c, t, rfl, hc⟩ := h.exists_cons
    rw [List.cons_append, readValue_scalar hc]
    exact hread
  | text h =>
    obtain ⟨body, heq, hread⟩ := readString_of_spells h (s ++ rest) rest
    rw [heq] at hread ⊢
    rw [readValue, hread]
    rfl
  | @emptyList depth gap hgap =>
    have hskip : skipSpace (gap ++ .char ']' :: rest) = .char ']' :: rest :=
      skipSpace_append hgap (stops_cons.2 rfl)
    simp [readValue, hskip]
  | @list depth s items h =>
    -- The brackets are two characters, and only one unit of fuel is gone.
    have hlen : s.length < fuel := by simp at hfuel; omega
    simp only [List.cons_append, List.append_assoc, List.nil_append]
    rw [readValue_items (h.skipSpace_ne _), hitems rest h hlen]
    rfl
  | @emptyTable depth gap hgap =>
    have hskip : skipSpace (gap ++ .char '\x7d' :: rest) = .char '\x7d' :: rest :=
      skipSpace_append hgap (stops_cons.2 rfl)
    simp [readValue, hskip]
  | @table depth s entries h =>
    have hlen : s.length < fuel := by simp at hfuel; omega
    simp only [List.cons_append, List.append_assoc, List.nil_append]
    rw [readValue_entries (h.skipSpace_ne _), hentries rest h hlen]
    rfl

/-- With fuel for values, the items of a list are read. -/
theorem readsItems_succ (hvalues : ReadsValues fuel) (hitems : ReadsItems fuel) :
    ReadsItems (fuel + 1) := by
  intro depth s items rest h hfuel
  cases h with
  | @last depth front t back value hfront h hback =>
    have hread := hvalues (back ++ .char ']' :: rest) h (isEnd_append hback (isEnd_cons rfl))
      (by simp at hfuel; omega)
    have hskip : skipSpace (back ++ .char ']' :: rest) = .char ']' :: rest :=
      skipSpace_append hback (stops_cons.2 rfl)
    simp only [List.append_assoc]
    rw [h.skipSpace_append hfront, readItems_last hread hskip]
  | @more depth front t back s value items hfront h hback hrest =>
    have hread := hvalues (back ++ .char ',' :: (s ++ .char ']' :: rest)) h
      (isEnd_append hback (isEnd_cons rfl)) (by simp at hfuel; omega)
    have hskip : skipSpace (back ++ .char ',' :: (s ++ .char ']' :: rest)) =
        .char ',' :: (s ++ .char ']' :: rest) := skipSpace_append hback (stops_cons.2 rfl)
    simp only [List.append_assoc, List.cons_append]
    have hmore := hitems rest hrest (by simp at hfuel; omega)
    rw [h.skipSpace_append hfront, readItems_more hread hskip hmore]

/-- With fuel for values, the entries of a table are read. -/
theorem readsEntries_succ (hvalues : ReadsValues fuel) (hentries : ReadsEntries fuel) :
    ReadsEntries (fuel + 1) := by
  intro depth s entries rest h hfuel
  cases h with
  | @last depth front string before after t back name value hfront hname hbefore hafter h hback =>
    have hread := hvalues (back ++ .char '\x7d' :: rest) h (isEnd_append hback (isEnd_cons rfl))
      (by simp at hfuel; omega)
    rw [← h.skipSpace_append hafter] at hread
    have hskip : skipSpace (back ++ .char '\x7d' :: rest) = .char '\x7d' :: rest :=
      skipSpace_append hback (stops_cons.2 rfl)
    simp only [List.append_assoc, List.cons_append]
    rw [hname.skipSpace_append hfront, readEntries_last hname hbefore hread hskip]
  | @more depth front string before after t back s name value entries hfront hname hbefore hafter h
    hback
      hrest =>
    have hread := hvalues (back ++ .char ',' :: (s ++ .char '\x7d' :: rest)) h
      (isEnd_append hback (isEnd_cons rfl)) (by simp at hfuel; omega)
    rw [← h.skipSpace_append hafter] at hread
    have hskip : skipSpace (back ++ .char ',' :: (s ++ .char '\x7d' :: rest)) =
        .char ',' :: (s ++ .char '\x7d' :: rest) :=
      skipSpace_append hback (stops_cons.2 rfl)
    simp only [List.append_assoc, List.cons_append]
    have hmore := hentries rest hrest (by simp at hfuel; omega)
    rw [hname.skipSpace_append hfront, readEntries_more hname hbefore hread hskip hmore]

end Fuel

/-- Every amount of fuel reads what it is enough for. -/
theorem reads_all (fuel : Nat) : ReadsValues fuel ∧ ReadsItems fuel ∧ ReadsEntries fuel := by
  induction fuel with
  | zero =>
    refine ⟨fun _ s value rest h _ hfuel => ?_, fun _ _ _ _ _ h => absurd h (Nat.not_lt_zero _),
      fun _ _ _ _ _ h => absurd h (Nat.not_lt_zero _)⟩
    obtain ⟨c, t, rfl, -⟩ := h.exists_cons
    exact absurd hfuel (Nat.not_succ_le_zero _)
  | succ fuel ih =>
    obtain ⟨hvalues, hitems, hentries⟩ := ih
    exact ⟨readsValues_succ hitems hentries, readsItems_succ hvalues hitems,
      readsEntries_succ hvalues hentries⟩

/-- No byte order mark begins a spelling. -/
theorem Spells.ne_mark {depth : Nat} {front s back : Text} {value : Value} (hfront : IsGap front)
    (h : Spells depth s value) (t : Text) : front ++ (s ++ back) ≠ .char '\ufeff' :: t := by
  intro heq
  cases front with
  | nil =>
    obtain ⟨c, s, rfl, hc⟩ := h.exists_cons
    obtain ⟨rfl, -⟩ := List.cons.inj heq
    exact Bool.false_ne_true hc
  | cons c front =>
    have hc := hfront c List.mem_cons_self
    obtain ⟨rfl, -⟩ := List.cons.inj heq
    exact Bool.false_ne_true hc

/-- Every spelling of a value, with white space around it, is read as that value where there is room
for its brackets. -/
theorem read?_of_isDocument {depth : Nat} {s : Text} {value : Value}
    (h : IsDocument depth s value) : read? depth s = .ok value := by
  obtain @⟨front, t, back, value, hfront, h, hback⟩ := h
  have hlen : t.length ≤ 2 * (front ++ (t ++ back)).length + 2 := by simp; omega
  have hread := (reads_all _).1 back h (isEnd_gap hback) hlen
  have hskip : skipSpace back = [] := List.dropWhile_eq_nil_iff.2 hback
  rw [read?]
  · rw [h.skipSpace_append hfront, hread]
    show (if (skipSpace back).isEmpty then _ else _) = _
    rw [hskip]
    rfl
  · exact fun _ => h.ne_mark hfront _

end VerilogLayout.Json

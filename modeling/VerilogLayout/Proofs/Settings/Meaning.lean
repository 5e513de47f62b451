import VerilogLayout.Proofs.Settings.Mapping

/-!
# What a mapping means

`Columns.ofMapping?_meaning` says what a mapping of keys to values means without the order in which
it is read: when it is refused and when the refusal has a report, which number each setting has
otherwise, and that only entries for settings matter. A report shows the value that is at fault, and
for some values that passes a limit. `Columns.Overflows` tells of the entries when this happens, and
`ofMapping?_limit_iff` says that exactly then a limit takes the place of the report.
`readEntries?_limit_iff` follows the entries, of which the first unreadable one decides, and
`firstNegative?_iff` the settings, of which the first negative one does.
-/

namespace VerilogLayout

namespace Columns

variable {room : Nat}

/-- The first unreadable value for a setting cannot be written. -/
inductive FirstOverflows (room : Nat) : List (Text × Value) → Prop
  | here {entry : Text × Value} {rest : List (Text × Value)}
      (hname : ∃ setting, Names entry.1 setting) (hunreadable : Unreadable entry.2)
      (hlimit : entry.2.limit? room ≠ none) : FirstOverflows room (entry :: rest)
  | there {entry : Text × Value} {rest : List (Text × Value)}
      (hentry : (∃ setting, Names entry.1 setting) → ¬ Unreadable entry.2)
      (hrest : FirstOverflows room rest) : FirstOverflows room (entry :: rest)

/-- `n` is what the last entry of the first setting gives whose last entry gives a negative
integer. -/
def FirstNegative (entries : List (Text × Value)) (n : Int) : Prop :=
  ∃ before setting after, Setting.all = before ++ setting :: after ∧ n < 0 ∧
    (∃ value ∈ lastUnder? entries setting, Gives value n) ∧
    ∀ other ∈ before, ∀ value ∈ lastUnder? entries other, ∀ m, Gives value m → 0 ≤ m

/-- What is at fault in the entries cannot be written: the first unreadable value or, if all values
can be read, the first negative integer. -/
def Overflows (room : Nat) (entries : List (Text × Value)) : Prop :=
  FirstOverflows room entries ∨
    (∀ entry ∈ entries, (∃ setting, Names entry.1 setting) → ¬ Unreadable entry.2) ∧
      ∃ n, FirstNegative entries n ∧ Number.fits n = false

/-- A negative integer of more digits than can be written is at fault. -/
example : Overflows 900 [("port_num1", .int (-10 ^ 4300))] := by
  refine .inr ⟨?_, -10 ^ 4300, ⟨[], .portKeyword, _, rfl, by decide +kernel, ?_, nofun⟩, ?_⟩
  · rintro entry hentry - hunreadable
    obtain rfl := List.mem_singleton.1 hentry
    exact hunreadable.not_gives _ (.int _)
  · exact ⟨_, rfl, .int _⟩
  · decide +kernel

/-! ## Values -/

/-- An unreadable value that cannot be written is an entry's. -/
theorem FirstOverflows.exists_mem {entries : List (Text × Value)}
    (h : FirstOverflows room entries) :
    ∃ entry ∈ entries, (∃ setting, Names entry.1 setting) ∧ Unreadable entry.2 ∧
      entry.2.limit? room ≠ none := by
  induction h with
  | @here entry rest hname hunreadable hlimit =>
      exact ⟨entry, List.mem_cons_self, hname, hunreadable, hlimit⟩
  | there _ _ ih =>
      obtain ⟨entry, hmem, hentry⟩ := ih
      exact ⟨entry, List.mem_cons_of_mem _ hmem, hentry⟩

/-- A limit is passed exactly by a value that is unreadable and cannot be written. -/
theorem readValue?_limit_iff {setting : Setting} {value : Value} :
    (∃ passed, readValue? room setting value = .error (.limit passed)) ↔
      Unreadable value ∧ value.limit? room ≠ none := by
  rw [Option.ne_none_iff_exists']
  cases hvalue : readValue? room setting value with
  | ok n =>
      refine iff_of_false nofun ?_
      rintro ⟨hunreadable, -⟩
      exact hunreadable.not_gives n (gives_of_readValue? hvalue)
  | error e =>
      obtain ⟨hunreadable, -, hlimit⟩ := unreadable_of_readValue? hvalue
      rw [and_iff_right hunreadable]
      refine exists_congr fun passed => ?_
      rw [Except.error.injEq]
      exact hlimit passed

/-- The first unreadable value decides whether reading the entries passes a limit. -/
theorem readEntries?_limit_iff {entries : List (Text × Value)} :
    (∃ passed, readEntries? room entries = .error (.limit passed)) ↔
      FirstOverflows room entries := by
  -- The mapping is read from the front and stops at its first entry that cannot be read, so the
  -- cases are those of a single entry.
  induction entries with
  | nil => exact iff_of_false (by rintro ⟨_, ⟨⟩⟩) (by rintro ⟨⟩)
  | cons entry entries ih =>
      obtain ⟨key, value⟩ := entry
      rw [readEntries?]
      cases hname : Setting.ofName? (Text.afterLast '.' key) with
      | none =>
          have hnone : ¬ ∃ setting, Names key setting :=
            not_exists.2 (Setting.ofName?_eq_none.1 hname)
          dsimp only
          rw [ih]
          refine ⟨.there fun hkey => absurd hkey hnone, fun h => ?_⟩
          cases h with
          | here hkey => exact absurd hkey hnone
          | there _ hrest => exact hrest
      | some setting =>
          have hkey : ∃ setting, Names key setting := ⟨setting, Setting.ofName?_eq_some.1 hname⟩
          have hiff := @readValue?_limit_iff room setting value
          dsimp only
          cases hvalue : readValue? room setting value with
          | error e =>
              have hunreadable := (unreadable_of_readValue? hvalue).1
              rw [hvalue, and_iff_right hunreadable] at hiff
              have hstop :
                  (∃ passed, (Except.error e : Except SettingError (List (Setting × Int))) =
                  .error (.limit passed)) ↔ value.limit? room ≠ none := by
                simpa only [Except.error.injEq] using hiff
              refine hstop.trans ⟨fun hlimit => .here hkey hunreadable hlimit, fun h => ?_⟩
              cases h with
              | here _ _ hlimit => exact hlimit
              | there hread _ => exact absurd hunreadable (hread hkey)
          | ok n =>
              have hread : ¬ Unreadable value := fun hunreadable =>
                hunreadable.not_gives n (gives_of_readValue? hvalue)
              have hrest : (∃ passed, (do
                  let others ← readEntries? room entries
                  Except.ok ((setting, n) :: others)) = .error (.limit passed)) ↔
                    ∃ passed, readEntries? room entries = .error (.limit passed) := by
                cases readEntries? room entries with
                | error e => exact Iff.rfl
                | ok others => exact iff_of_false (by rintro ⟨_, ⟨⟩⟩) (by rintro ⟨_, ⟨⟩⟩)
              refine hrest.trans (ih.trans ⟨.there fun _ => hread, fun h => ?_⟩)
              cases h with
              | here _ hunreadable _ => exact absurd hunreadable hread
              | there _ h => exact h

/-! ## Signs -/

/-- The last integer of a setting is negative exactly if its last entry gives a negative one. -/
theorem lastGiven?_iff {entries : List (Text × Value)} {given : List (Setting × Int)}
    (hread : readEntries? room entries = .ok given) (setting : Setting) (n : Int) :
    lastGiven? given setting = some n ↔ ∃ value ∈ lastUnder? entries setting, Gives value n := by
  rcases lastGiven?_of_readEntries? hread setting with
    ⟨hentry, hgiven⟩ | ⟨value, m, hentry, hgiven, hgives⟩
  · rw [hentry, hgiven]
    exact iff_of_false nofun nofun
  · rw [hentry, hgiven, Option.some.injEq]
    constructor
    · rintro rfl
      exact ⟨value, rfl, hgives⟩
    · rintro ⟨other, hother, hn⟩
      obtain rfl := Option.some.inj hother
      exact gives_unique hgives hn

/-- The negative integer that is found is the one of the first setting that has one. -/
theorem firstNegative?_iff {entries : List (Text × Value)} {given : List (Setting × Int)}
    (hread : readEntries? room entries = .ok given) (n : Int) :
    (∃ setting, firstNegative? given = some (setting, n)) ↔ FirstNegative entries n := by
  have hlast := lastGiven?_iff hread
  have hnone : ∀ other, (∀ value ∈ lastUnder? entries other, ∀ m, Gives value m → 0 ≤ m) ↔
      ∀ m, lastGiven? given other = some m → 0 ≤ m := by
    intro other
    constructor
    · intro h m hm
      obtain ⟨value, hvalue, hgives⟩ := (hlast other m).1 hm
      exact h value hvalue m hgives
    · exact fun h value hvalue m hgives => h m ((hlast other m).2 ⟨value, hvalue, hgives⟩)
  simp only [FirstNegative, hnone, ← hlast]
  constructor
  -- The settings are searched in their own order, so the one found has only good ones before it.
  · rintro ⟨setting, h⟩
    obtain ⟨hn, hneg⟩ := firstNegative?_eq_some h
    obtain ⟨before, other, after, hall, hother, hbefore⟩ := List.findSome?_eq_some_iff.1 h
    have hsame : other = setting := by
      split at hother
      · split at hother
        · exact congrArg Prod.fst (Option.some.inj hother)
        · cases hother
      · cases hother
    subst hsame
    refine ⟨before, other, after, hall, hneg, hn, fun earlier hmem m hm => ?_⟩
    have hfree := hbefore earlier hmem
    rw [hm] at hfree
    by_contra hnegative
    exact absurd hfree (by simp [Int.not_le.1 hnegative])
  · rintro ⟨before, setting, after, hall, hneg, hn, hbefore⟩
    refine ⟨setting, List.findSome?_eq_some_iff.2 ⟨before, setting, after, hall, ?_, ?_⟩⟩
    · rw [hn]
      exact if_pos hneg
    · intro earlier hmem
      cases hm : lastGiven? given earlier with
      | none => rfl
      | some m => exact if_neg (Int.not_lt.2 (hbefore earlier hmem m hm))

/-- Once the entries are read, only a negative integer can pass a limit. -/
theorem update?_limit_iff {columns : Columns} {given : List (Setting × Int)} :
    (∃ passed, columns.update? room given = .error (.limit passed)) ↔
      ∃ n, (∃ setting, firstNegative? given = some (setting, n)) ∧ Number.fits n = false := by
  rw [update?]
  cases firstNegative? given with
  | none => exact iff_of_false (by rintro ⟨_, ⟨⟩⟩) (by rintro ⟨_, ⟨_, ⟨⟩⟩, -⟩)
  | some entry =>
      obtain ⟨setting, n⟩ := entry
      dsimp only
      have hlimit : (SettingError.negative setting n).limit? room =
          if Number.fits n then none else some (.digits none) := by
        rw [SettingError.limit?, Value.limit?]
      cases hfits : Number.fits n with
      | true =>
          rw [SettingError.shownWithin_of_none (by rw [hlimit, if_pos hfits])]
          refine iff_of_false (by rintro ⟨_, ⟨⟩⟩) ?_
          rintro ⟨m, ⟨other, heq⟩, hm⟩
          obtain ⟨-, rfl⟩ := Prod.mk.inj (Option.some.inj heq)
          rw [hfits] at hm
          cases hm
      | false =>
          rw [SettingError.shownWithin_of_some (by rw [hlimit, hfits]; rfl)]
          exact iff_of_true ⟨_, rfl⟩ ⟨n, ⟨setting, rfl⟩, hfits⟩

/-! ## Mappings -/

/-- A limit takes the place of a report exactly if what is at fault cannot be written. -/
theorem ofMapping?_limit_iff {entries : List (Text × Value)} :
    (∃ passed, ofMapping? room entries = .error (.limit passed)) ↔ Overflows room entries := by
  unfold Overflows
  cases hread : readEntries? room entries with
  | error e =>
      obtain ⟨entry, hmem, hname, hunreadable, -⟩ := (unreadable_of_readEntries? hread).1
      have hstop : ofMapping? room entries = .error e := by
        rw [ofMapping?, hread]
        rfl
      rw [hstop, ← readEntries?_limit_iff, hread, or_iff_left]
      · simp only [Except.error.injEq]
      · exact fun h => h.1 entry hmem hname hunreadable
  | ok given =>
      have hgood := not_unreadable_of_readEntries? hread
      have hfirst : ¬ FirstOverflows room entries := by
        intro h
        obtain ⟨entry, hmem, hname, hunreadable, -⟩ := h.exists_mem
        exact hgood entry hmem hname hunreadable
      rw [ofMapping?_of_readEntries? hread, update?_limit_iff, or_iff_right hfirst,
        and_iff_right hgood]
      exact exists_congr fun n => and_congr_left fun _ => firstNegative?_iff hread n

/-- Entries whose fault cannot be written have one. -/
theorem Overflows.refused {entries : List (Text × Value)} (h : Overflows room entries) :
    Refused entries := by
  rcases h with h | ⟨-, n, ⟨_, setting, _, -, hneg, ⟨value, hvalue, hgives⟩, -⟩, -⟩
  · obtain ⟨entry, hmem, hname, hunreadable, -⟩ := h.exists_mem
    exact .inl ⟨entry, hmem, hname, hunreadable⟩
  · exact .inr ⟨setting, value, hvalue, n, hneg, hgives⟩

/-- What can be written does not pass a limit. -/
theorem Writable.not_overflows {entries : List (Text × Value)} (h : Writable room entries) :
    ¬ Overflows room entries := by
  rintro (hfirst | ⟨-, n, ⟨_, setting, _, -, -, ⟨value, hvalue, hgives⟩, -⟩, hfits⟩)
  · obtain ⟨entry, hmem, hname, -, hlimit⟩ := hfirst.exists_mem
    exact hlimit (h entry hmem hname)
  · obtain ⟨key, hmem, hname⟩ := exists_of_lastUnder? hvalue
    rw [hgives.fits (h _ hmem ⟨setting, hname⟩)] at hfits
    cases hfits

/-- Only a refused mapping is an error. -/
theorem refused_of_ofMapping? {entries : List (Text × Value)} {e : SettingError}
    (h : ofMapping? room entries = .error e) : Refused entries := by
  by_contra hgood
  obtain ⟨columns, hok, -⟩ := exists_ofMapping? hgood
  rw [h] at hok
  cases hok

/-- An error has a report exactly if what is at fault can be written. -/
theorem exists_report_iff {entries : List (Text × Value)} {e : SettingError}
    (h : ofMapping? room entries = .error e) :
    (∃ report, e.report? = some report) ↔ ¬ Overflows room entries := by
  obtain ⟨other, hother, hkind⟩ := exists_error (refused_of_ofMapping? h)
  obtain rfl := Except.error.inj (hother.symm.trans h)
  rw [← ofMapping?_limit_iff, hother]
  cases other with
  | unknownPreset name => exact absurd rfl (hkind name)
  | limit passed =>
      refine iff_of_false ?_ (not_not_intro ⟨passed, rfl⟩)
      rintro ⟨report, hreport⟩
      cases hreport
  | truthValue | unreadable | noInteger | negative => exact iff_of_true ⟨_, rfl⟩ nofun

end Columns

open Columns

/-- What a mapping sets: it is refused exactly if an entry for a setting cannot be read or the last
one for a setting is negative, with a report if the values can be written, and otherwise each
setting has the integer of its last entry or its standard. Other entries and what stands before the
names do not matter, so columns are had again from their own mapping. -/
theorem Columns.ofMapping?_meaning (room : Nat) (entries : List (Text × Value)) :
    ((∃ e, ofMapping? room entries = .error e ∧ ∀ name, e ≠ .unknownPreset name) ↔
      Refused entries) ∧
    (¬ Refused entries → ∃ columns, ofMapping? room entries = .ok columns ∧ ∀ setting,
      (∀ value ∈ lastUnder? entries setting, Gives value (columns setting)) ∧
        (lastUnder? entries setting = none → columns setting = standard setting)) ∧
    ofMapping? room entries = ofMapping? room (known entries) ∧
    (∀ columns : Columns, known entries = columns.toEntries →
      ofMapping? room entries = .ok columns) ∧
    (Writable room entries → Refused entries →
      ∃ e report, ofMapping? room entries = .error e ∧ e.report? = some report) := by
  have hknown : ofMapping? room entries = ofMapping? room (known entries) := by
    rw [ofMapping?, ofMapping?, readEntries?_known]
  refine ⟨⟨?_, exists_error⟩, exists_ofMapping?, hknown, fun columns heq => ?_, ?_⟩
  · rintro ⟨e, he, -⟩
    exact refused_of_ofMapping? he
  · rw [hknown, heq, ofMapping?_toEntries]
  · intro hwritable hrefused
    obtain ⟨e, he, -⟩ := exists_error hrefused
    obtain ⟨report, hreport⟩ := (exists_report_iff he).2 hwritable.not_overflows
    exact ⟨e, report, he, hreport⟩

/-- A mapping with two entries for one setting, one with all settings behind a point among other
keys, and one that is refused. -/
theorem Columns.ofMapping?_meaning_dotted :
    let twice : List (Text × Value) :=
      [("hdlalign.port_num1", .text " -1_0 "), ("font.size", .null), ("port_num1", .text "+\u0663")]
    let dotted : List (Text × Value) :=
      ("font.size", .null) :: compact.toEntries.map fun entry => ("a.b." ++ entry.1, entry.2)
    let nested : List (Text × Value) := [("port_num1", .list [.int 4])]
    ¬ Refused twice ∧
      (∃ columns, ofMapping? 900 twice = .ok columns ∧
        Gives (.text "+\u0663") (columns .portKeyword) ∧ columns .portName = 50) ∧
      known dotted = compact.toEntries ∧ ofMapping? 900 dotted = .ok compact ∧
      Writable 900 nested ∧ Refused nested ∧
      ∃ e report, ofMapping? 900 nested = .error e ∧ e.report? = some report := by
  intro twice dotted nested
  have hok : (ofMapping? 900 twice).isOk := by decide +kernel
  have hknown : known dotted = compact.toEntries :=
    (List.filter_cons_of_neg (by decide +kernel)).trans (known_toEntries_map "a.b" compact)
  have hrefused : ¬ Refused twice := by
    intro h
    obtain ⟨e, he, -⟩ := (ofMapping?_meaning 900 twice).1.2 h
    rw [he] at hok
    cases hok
  obtain ⟨columns, hcolumns, hmeaning⟩ := (ofMapping?_meaning 900 twice).2.1 hrefused
  have hwritable : Writable 900 nested := by
    rintro entry hentry -
    obtain rfl := List.mem_singleton.1 hentry
    decide +kernel
  have hnested : Refused nested := (ofMapping?_meaning 900 nested).1.1 ⟨_, rfl, nofun⟩
  exact ⟨hrefused,
    ⟨columns, hcolumns, (hmeaning .portKeyword).1 _ rfl, (hmeaning .portName).2 rfl⟩, hknown,
    (ofMapping?_meaning 900 dotted).2.2.2.1 compact hknown, hwritable, hnested,
    (ofMapping?_meaning 900 nested).2.2.2.2 hwritable hnested⟩

end VerilogLayout

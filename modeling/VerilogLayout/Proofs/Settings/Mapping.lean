import Mathlib.Data.List.Nodup
import Mathlib.Data.List.TakeWhile
import VerilogLayout.Column.Mapping
import VerilogLayout.Proofs.Settings.Integer
import VerilogLayout.Proofs.Source.Trim

/-!
# Reading a mapping

A mapping of keys to values is refused if an entry for a setting cannot be read or a last one is
negative, `Columns.exists_error`, and gives each setting the integer of its last entry otherwise,
`Columns.exists_ofMapping?`. Reading keeps the last integer of each setting,
`lastGiven?_of_readEntries?`, so after all values have been read the signs of these integers alone
decide. `readEntries?_known` says that other entries and what stands before the names do not matter.
-/

namespace VerilogLayout

namespace Text

/-- Nothing stops the search from behind in a text without a separator. -/
theorem forall_mem_reverse_ne {separator : CodePoint} {s : Text} (h : separator ∉ s) :
    ∀ c ∈ s.reverse, decide (c ≠ separator) = true := by
  intro c hc
  refine decide_eq_true ?_
  rintro rfl
  exact h (List.mem_reverse.1 hc)

/-- A text without a separator is found whatever stands in front of the last separator. -/
theorem afterLast_append {separator : CodePoint} {s : Text} (h : separator ∉ s) (front : Text) :
    afterLast separator (front ++ separator :: s) = s := by
  have hstops : Stops (· ≠ separator) ([separator] ++ front.reverse) :=
    stops_cons.2 (decide_eq_false fun hne => hne rfl)
  rw [afterLast, List.reverse_append, List.reverse_cons, List.append_assoc,
    takeWhile_append (forall_mem_reverse_ne h) hstops, List.reverse_reverse]

theorem afterLast_eq_self {separator : CodePoint} {s : Text} (h : separator ∉ s) :
    afterLast separator s = s := by
  rw [afterLast, List.takeWhile_eq_self_iff.2 (forall_mem_reverse_ne h), List.reverse_reverse]

/-- What stands behind the last separator holds none. -/
theorem afterLast_afterLast (separator : CodePoint) (s : Text) :
    afterLast separator (afterLast separator s) = afterLast separator s := by
  rw [afterLast, afterLast, List.reverse_reverse, List.takeWhile_idem]

end Text

namespace Setting

/-- No two settings have the same name. -/
theorem name_inj {setting other : Setting} (h : setting.name = other.name) : setting = other := by
  -- A number for each name, since numbers are compared at once and texts one character at a time.
  let code (name : Text) : Nat := name.foldl (fun n c => 31 * n + c.toNat) 0
  have hnodup : (all.map fun setting => code setting.name).Nodup := by decide +kernel
  exact List.inj_on_of_nodup_map hnodup (mem_all setting) (mem_all other) (congrArg code h)

/-- No point stands in a name. -/
theorem not_mem_name (setting : Setting) : .char '.' ∉ setting.name := by
  have hall : ∀ setting ∈ all, .char '.' ∉ setting.name := by decide +kernel
  exact hall setting (mem_all setting)

theorem afterLast_name (setting : Setting) : Text.afterLast '.' setting.name = setting.name :=
  Text.afterLast_eq_self (not_mem_name setting)

/-- A setting is found by its name and by no other. -/
theorem ofName?_eq_some {name : Text} {setting : Setting} :
    ofName? name = some setting ↔ name = setting.name := by
  have hname : ∀ {other}, ofName? name = some other → other.name = name := by
    intro other h
    have hfound := List.find?_some (p := fun setting : Setting => decide (setting.name = name)) h
    exact of_decide_eq_true hfound
  constructor
  · exact fun h => (hname h).symm
  · rintro rfl
    cases hfound : ofName? setting.name with
    | none =>
        exact absurd (decide_eq_true rfl) (List.find?_eq_none.1 hfound setting (mem_all setting))
    | some other => rw [name_inj (hname hfound)]

/-- Nothing is found by what is the name of no setting. -/
theorem ofName?_eq_none {name : Text} :
    ofName? name = none ↔ ∀ setting, name ≠ Setting.name setting := by
  rw [Option.eq_none_iff_forall_ne_some]
  exact forall_congr' fun setting => not_congr ofName?_eq_some

end Setting

namespace Columns

/-- The key names the setting: so its part behind the last point reads. -/
def Names (key : Text) (setting : Setting) : Prop :=
  Text.afterLast '.' key = setting.name

instance (key : Text) (setting : Setting) : Decidable (Names key setting) :=
  inferInstanceAs (Decidable (_ = _))

/-- The values of the entries for settings can be written. -/
def Writable (room : Nat) (entries : List (Text × Value)) : Prop :=
  ∀ entry ∈ entries, (∃ setting, Names entry.1 setting) → entry.2.limit? room = none

/-- The value of the last entry for a setting. -/
def lastUnder? (entries : List (Text × Value)) (setting : Setting) : Option Value :=
  (entries.filter fun entry => Names entry.1 setting).getLast?.map Prod.snd

/-- The integer that a value gives: itself, or what its text spells. -/
inductive Gives : Value → Int → Prop
  | int (n : Int) : Gives (.int n) n
  | spelled {value : Value} {n : Int} (hbool : ∀ b, value ≠ .bool b) (hint : ∀ m, value ≠ .int m)
      (h : Number.SpellsInteger (Text.trim value.plain) n) : Gives value n

/-- The value is a truth value, or it is no integer and its text spells none. -/
def Unreadable (value : Value) : Prop :=
  (∃ b, value = .bool b) ∨
    (∀ n, value ≠ .int n) ∧ ∀ n, ¬ Number.SpellsInteger (Text.trim value.plain) n

/-- Some entry for a setting cannot be read, or the last one for a setting gives a negative
integer. -/
def Refused (entries : List (Text × Value)) : Prop :=
  (∃ entry ∈ entries, (∃ setting, Names entry.1 setting) ∧ Unreadable entry.2) ∨
    ∃ setting, ∃ value ∈ lastUnder? entries setting, ∃ n < 0, Gives value n

/-- The entries for settings, each with the bare name of its setting as its key. -/
def known (entries : List (Text × Value)) : List (Text × Value) :=
  (entries.map fun entry => (Text.afterLast '.' entry.1, entry.2)).filter fun entry =>
    entry.1 ∈ Setting.all.map Setting.name

variable {room : Nat}

/-! ## One value -/

/-- A list and a table are written in brackets, which spell no integer. -/
theorem not_spellsInteger_of_limit? {value : Value} {passed : Limit}
    (hint : ∀ n, value ≠ .int n) (h : value.limit? room = some passed) (n : Int) :
    ¬ Number.SpellsInteger (Text.trim value.plain) n := by
  have hbracket : ∃ c rest, value.plain = c :: rest ∧ (c = '[' ∨ c = '\x7b') := by
    cases value with
    | list items => exact ⟨_, _, rfl, .inl rfl⟩
    | table entries => exact ⟨_, _, rfl, .inr rfl⟩
    | int n => exact absurd rfl (hint n)
    | null | bool _ | float _ | text _ | moment _ => cases h
  obtain ⟨c, rest, hplain, hc⟩ := hbracket
  have hblank : Text.isBlank c = false := by rcases hc with rfl | rfl <;> rfl
  rw [hplain, Text.trim_cons hblank]
  intro hspells
  obtain ⟨d, _, heq, hd⟩ := hspells.exists_cons
  obtain rfl := (List.cons.inj heq).1
  rcases hc with rfl | rfl <;> revert hd <;> decide +kernel

/-- The text of a value is read as an integer exactly if it spells one, whether or not it can be
written. -/
theorem readInteger?_plain? {value : Value} (hint : ∀ n, value ≠ .int n) :
    ((value.plain? room).toOption.bind fun text => Number.readInteger? (Text.trim text)) =
      Number.readInteger? (Text.trim value.plain) := by
  unfold Value.plain?
  split
  · rfl
  · next passed h =>
      refine (Option.eq_none_iff_forall_ne_some.2 fun n hn => ?_).symm
      exact not_spellsInteger_of_limit? hint h n (Number.readInteger?_eq_some.1 hn)

/-- What cannot be read gives no integer. -/
theorem Unreadable.not_gives {value : Value} (h : Unreadable value) (n : Int) :
    ¬ Gives value n := by
  intro hgives
  cases hgives with
  | int n =>
      rcases h with ⟨b, hb⟩ | ⟨hint, -⟩
      · cases hb
      · exact hint n rfl
  | spelled hbool hint hspells =>
      rcases h with ⟨b, hb⟩ | ⟨-, hnone⟩
      · exact hbool b hb
      · exact hnone n hspells

/-- A value that is read gives the integer as which it is read. -/
theorem gives_of_readValue? {setting : Setting} {value : Value} {n : Int}
    (h : readValue? room setting value = .ok n) : Gives value n := by
  unfold readValue? at h
  split at h
  · cases h
  · obtain rfl := Except.ok.inj h
    exact .int _
  · next hbool hint =>
      rw [readInteger?_plain? hint] at h
      split at h
      · next m hread =>
          obtain rfl := Except.ok.inj h
          exact .spelled hbool hint (Number.readInteger?_eq_some.1 hread)
      · cases h

/-- A value that is not read is unreadable, and the error shows it unless that passes a limit. -/
theorem unreadable_of_readValue? {setting : Setting} {value : Value} {e : SettingError}
    (h : readValue? room setting value = .error e) :
    Unreadable value ∧ (∀ name, e ≠ .unknownPreset name) ∧
      ∀ passed, e = .limit passed ↔ value.limit? room = some passed := by
  unfold readValue? at h
  split at h
  · next b =>
      obtain rfl := Except.error.inj h
      exact ⟨.inl ⟨b, rfl⟩, nofun, fun passed => iff_of_false nofun nofun⟩
  · cases h
  · next hbool hint =>
      rw [readInteger?_plain? hint] at h
      split at h
      · cases h
      · next hnone =>
          have hunreadable : Unreadable value := by
            refine .inr ⟨hint, fun n hspells => ?_⟩
            rw [Number.readInteger?_eq_some.2 hspells] at hnone
            cases hnone
          obtain rfl := Except.error.inj h
          refine ⟨hunreadable, ?_⟩
          have hsame : (SettingError.unreadable setting value).limit? room = value.limit? room :=
            rfl
          cases hlimit : value.limit? room with
          | none =>
              rw [SettingError.shownWithin_of_none (hsame.trans hlimit)]
              exact ⟨nofun, fun passed => iff_of_false nofun nofun⟩
          | some passed =>
              rw [SettingError.shownWithin_of_some (hsame.trans hlimit)]
              refine ⟨nofun, fun other => ?_⟩
              rw [SettingError.limit.injEq, Option.some.injEq]

/-! ## All values -/

/-- An integer in front counts for its setting if no later one does. -/
theorem lastGiven?_cons (setting other : Setting) (n : Int) (given : List (Setting × Int)) :
    lastGiven? ((other, n) :: given) setting =
      (lastGiven? given setting).or (if other = setting then some n else none) := by
  rw [lastGiven?, List.reverse_cons, List.lookup_append]
  congr 1
  by_cases h : other = setting
  · subst h
    simp
  · rw [if_neg h, List.lookup_cons, beq_false_of_ne (Ne.symm h)]
    rfl

/-- An entry in front counts for the setting that it names if no later one does. -/
theorem lastUnder?_cons (setting : Setting) (key : Text) (value : Value)
    (entries : List (Text × Value)) :
    lastUnder? ((key, value) :: entries) setting =
      (lastUnder? entries setting).or (if Names key setting then some value else none) := by
  unfold lastUnder?
  by_cases h : Names key setting
  · rw [List.filter_cons_of_pos (by simpa using h), if_pos h, List.getLast?_cons]
    cases (entries.filter fun entry => Names entry.1 setting).getLast? <;> rfl
  · rw [List.filter_cons_of_neg (by simpa using h), if_neg h, Option.or_none]

/-- One entry is read for the setting that it names, or passed over. -/
theorem readEntries?_cons_eq_ok {key : Text} {value : Value} {entries : List (Text × Value)}
    {given : List (Setting × Int)} (h : readEntries? room ((key, value) :: entries) = .ok given) :
    (∀ setting, ¬ Names key setting) ∧ readEntries? room entries = .ok given ∨
      ∃ setting n others, Names key setting ∧ Gives value n ∧
        readEntries? room entries = .ok others ∧ given = (setting, n) :: others := by
  rw [readEntries?] at h
  split at h
  · next hname => exact .inl ⟨Setting.ofName?_eq_none.1 hname, h⟩
  · next setting hname =>
      cases hvalue : readValue? room setting value with
      | error e => rw [hvalue] at h; cases h
      | ok n =>
          cases hothers : readEntries? room entries with
          | error e => rw [hvalue, hothers] at h; cases h
          | ok others =>
              rw [hvalue, hothers] at h
              exact .inr ⟨setting, n, others, Setting.ofName?_eq_some.1 hname,
                gives_of_readValue? hvalue, rfl, (Except.ok.inj h).symm⟩

/-- Reading fails at an entry for a setting whose value cannot be read. -/
theorem unreadable_of_readEntries? {entries : List (Text × Value)} {e : SettingError}
    (h : readEntries? room entries = .error e) :
    (∃ entry ∈ entries, (∃ setting, Names entry.1 setting) ∧ Unreadable entry.2 ∧
      ∀ passed, e = .limit passed ↔ entry.2.limit? room = some passed) ∧
      ∀ name, e ≠ .unknownPreset name := by
  induction entries with
  | nil => cases h
  | cons entry entries ih =>
      obtain ⟨key, value⟩ := entry
      have hrest : readEntries? room entries = .error e →
          (∃ entry ∈ (key, value) :: entries, (∃ setting, Names entry.1 setting) ∧
            Unreadable entry.2 ∧ ∀ passed, e = .limit passed ↔ entry.2.limit? room = some passed) ∧
          ∀ name, e ≠ .unknownPreset name := by
        intro h
        obtain ⟨⟨entry, hmem, hentry⟩, hkind⟩ := ih h
        exact ⟨⟨entry, List.mem_cons_of_mem _ hmem, hentry⟩, hkind⟩
      rw [readEntries?] at h
      split at h
      · exact hrest h
      · next setting hname =>
          cases hvalue : readValue? room setting value with
          | error other =>
              rw [hvalue] at h
              obtain rfl := Except.error.inj h
              obtain ⟨hunreadable, hkind, hlimit⟩ := unreadable_of_readValue? hvalue
              exact ⟨⟨(key, value), List.mem_cons_self,
                ⟨setting, Setting.ofName?_eq_some.1 hname⟩, hunreadable, hlimit⟩, hkind⟩
          | ok n =>
              cases hothers : readEntries? room entries with
              | error other =>
                  rw [hvalue, hothers] at h
                  obtain rfl := Except.error.inj h
                  exact hrest hothers
              | ok others => rw [hvalue, hothers] at h; cases h

/-- Whatever has been read could be read. -/
theorem not_unreadable_of_readEntries? {entries : List (Text × Value)}
    {given : List (Setting × Int)} (h : readEntries? room entries = .ok given) :
    ∀ entry ∈ entries, (∃ setting, Names entry.1 setting) → ¬ Unreadable entry.2 := by
  induction entries generalizing given with
  | nil => exact List.forall_mem_nil _
  | cons entry entries ih =>
      rcases readEntries?_cons_eq_ok h with ⟨hnone, hrest⟩ | ⟨_, n, _, -, hgives, hrest, -⟩
      · refine List.forall_mem_cons.2 ⟨?_, ih hrest⟩
        rintro ⟨setting, hname⟩
        exact absurd hname (hnone setting)
      · refine List.forall_mem_cons.2 ⟨?_, ih hrest⟩
        exact fun _ hunreadable => hunreadable.not_gives n hgives

/-- After reading, the last integer of each setting is what its last entry gives. -/
theorem lastGiven?_of_readEntries? {entries : List (Text × Value)} {given : List (Setting × Int)}
    (h : readEntries? room entries = .ok given) (setting : Setting) :
    lastUnder? entries setting = none ∧ lastGiven? given setting = none ∨
      ∃ value n, lastUnder? entries setting = some value ∧ lastGiven? given setting = some n ∧
        Gives value n := by
  induction entries generalizing given with
  | nil =>
      obtain rfl := Except.ok.inj h
      exact .inl ⟨rfl, rfl⟩
  | cons entry entries ih =>
      obtain ⟨key, value⟩ := entry
      rw [lastUnder?_cons]
      rcases readEntries?_cons_eq_ok h with
        ⟨hnone, hrest⟩ | ⟨other, n, others, hname, hgives, hrest, rfl⟩
      · rw [if_neg (hnone setting), Option.or_none]
        exact ih hrest
      · have hiff : Names key setting ↔ other = setting :=
          ⟨fun hkey => Setting.name_inj (hname.symm.trans hkey), fun h => h ▸ hname⟩
        rw [lastGiven?_cons]
        rcases ih hrest with ⟨hentry, hgiven⟩ | ⟨last, m, hentry, hgiven, hlast⟩
        · rw [hentry, hgiven, Option.none_or, Option.none_or]
          by_cases hsame : other = setting
          · exact .inr ⟨value, n, if_pos (hiff.2 hsame), if_pos hsame, hgives⟩
          · exact .inl ⟨if_neg (mt hiff.1 hsame), if_neg hsame⟩
        · rw [hentry, hgiven]
          exact .inr ⟨last, m, rfl, rfl, hlast⟩

/-! ## Other entries and prefixes -/

/-- Only the entries for settings are read, by the names of the settings. -/
theorem readEntries?_known (entries : List (Text × Value)) :
    readEntries? room (known entries) = readEntries? room entries := by
  induction entries with
  | nil => rfl
  | cons entry entries ih =>
      obtain ⟨key, value⟩ := entry
      cases hname : Setting.ofName? (Text.afterLast '.' key) with
      | none =>
          have hdrop : known ((key, value) :: entries) = known entries := by
            refine List.filter_cons_of_neg ?_
            simpa [eq_comm] using fun setting _ => Setting.ofName?_eq_none.1 hname setting
          rw [hdrop, ih, readEntries?, hname]
      | some setting =>
          have hkeep : known ((key, value) :: entries) =
              (Text.afterLast '.' key, value) :: known entries := by
            have hmem : Text.afterLast '.' key ∈ Setting.all.map Setting.name := by
              rw [Setting.ofName?_eq_some.1 hname]
              exact List.mem_map_of_mem (Setting.mem_all setting)
            exact List.filter_cons_of_pos (decide_eq_true hmem)
          rw [hkeep, readEntries?, readEntries?, Text.afterLast_afterLast, hname, ih]

/-! ## All settings -/

/-- Where every setting has an integer, this is its last one. -/
theorem lastGiven?_map_all (f : Setting → Int) (setting : Setting) :
    lastGiven? (Setting.all.map fun setting => (setting, f setting)) setting =
      some (f setting) := by
  rw [lastGiven?, ← List.map_reverse]
  exact List.lookup_graph f (List.mem_reverse.2 (Setting.mem_all setting))

/-- The mapping of all settings, as it is given by columns. -/
def toEntries (columns : Columns) : List (Text × Value) :=
  columns.toMapping.map fun entry => (entry.1, .int entry.2)

/-- The mapping of columns is read as their numbers. -/
theorem readEntries?_toEntries (columns : Columns) :
    readEntries? room columns.toEntries =
      .ok (Setting.all.map fun setting => (setting, (columns setting : Int))) := by
  rw [toEntries, toMapping, List.map_map]
  induction Setting.all with
  | nil => rfl
  | cons setting settings ih =>
      have hname : Setting.ofName? (Text.afterLast '.' setting.name) = some setting :=
        Setting.ofName?_eq_some.2 (Setting.afterLast_name setting)
      rw [List.map_cons, List.map_cons, Function.comp_apply, readEntries?, hname]
      dsimp only
      rw [ih]
      rfl

/-- The entries of columns are found behind a point too, whatever stands in front of it. -/
theorem known_toEntries_map (front : Text) (columns : Columns) :
    known (columns.toEntries.map fun entry => (front ++ .char '.' :: entry.1, entry.2)) =
      columns.toEntries := by
  have hsetting : ∀ entry ∈ columns.toEntries, ∃ setting : Setting, setting.name = entry.1 := by
    simp only [toEntries, toMapping, List.map_map, List.mem_map]
    rintro _ ⟨setting, -, rfl⟩
    exact ⟨setting, rfl⟩
  have hbare : ∀ entry ∈ columns.toEntries,
      Text.afterLast '.' (front ++ .char '.' :: entry.1) = entry.1 := by
    intro entry hentry
    obtain ⟨setting, hname⟩ := hsetting entry hentry
    exact Text.afterLast_append (hname ▸ setting.not_mem_name) front
  have hmap : (columns.toEntries.map fun entry =>
      (Text.afterLast '.' (front ++ .char '.' :: entry.1), entry.2)) = columns.toEntries := by
    refine Eq.trans (List.map_congr_left fun entry hentry => ?_) (List.map_id _)
    exact Prod.ext (hbare entry hentry) rfl
  rw [known, List.map_map]
  refine (congrArg _ hmap).trans (List.filter_eq_self.2 fun entry hentry => ?_)
  obtain ⟨setting, hname⟩ := hsetting entry hentry
  exact decide_eq_true (List.mem_map.2 ⟨setting, Setting.mem_all setting, hname⟩)

/-! ## Signs -/

/-- The integer that is found is the last one of its setting and negative. -/
theorem firstNegative?_eq_some {given : List (Setting × Int)} {setting : Setting} {n : Int}
    (h : firstNegative? given = some (setting, n)) : lastGiven? given setting = some n ∧ n < 0 := by
  obtain ⟨other, -, hother⟩ := List.exists_of_findSome?_eq_some h
  split at hother
  · next m hm =>
      split at hother
      · next hneg =>
          obtain ⟨rfl, rfl⟩ := Prod.mk.inj (Option.some.inj hother)
          exact ⟨hm, hneg⟩
      · cases hother
  · cases hother

/-- If none is found, no last integer is negative. -/
theorem firstNegative?_eq_none {given : List (Setting × Int)} {setting : Setting} {n : Int}
    (h : firstNegative? given = none) (hn : lastGiven? given setting = some n) : 0 ≤ n := by
  have hsetting := List.findSome?_eq_none_iff.1 h setting (Setting.mem_all setting)
  rw [hn] at hsetting
  dsimp only at hsetting
  split at hsetting
  · cases hsetting
  · next hneg => exact Int.not_lt.1 hneg

/-- Reading a mapping in two steps. -/
theorem ofMapping?_of_readEntries? {entries : List (Text × Value)} {given : List (Setting × Int)}
    (h : readEntries? room entries = .ok given) :
    ofMapping? room entries = standard.update? room given := by
  rw [ofMapping?, h]
  rfl

/-- The columns that all settings are given are had. -/
theorem ofMapping?_toEntries (columns : Columns) :
    ofMapping? room columns.toEntries = .ok columns := by
  rw [ofMapping?_of_readEntries? (readEntries?_toEntries columns), update?]
  have hgiven := lastGiven?_map_all fun setting => (columns setting : Int)
  cases hfirst : firstNegative? (Setting.all.map fun setting => (setting, (columns setting : Int)))
  with
  | none =>
      refine congrArg Except.ok (funext fun setting => ?_)
      rw [withGiven, hgiven]
      rfl
  | some entry =>
      obtain ⟨hlast, hneg⟩ := firstNegative?_eq_some hfirst
      rw [hgiven] at hlast
      have hn := Option.some.inj hlast
      omega

/-- A value gives at most one integer. -/
theorem gives_unique {value : Value} {n m : Int} (h : Gives value n) (hother : Gives value m) :
    n = m := by
  cases h with
  | int n =>
      cases hother with
      | int n => rfl
      | spelled _ hint _ => exact absurd rfl (hint n)
  | spelled hbool hint hspells =>
      cases hother with
      | int m => exact absurd rfl (hint m)
      | spelled _ _ hother =>
          rw [← Number.readInteger?_eq_some] at hspells hother
          exact Option.some.inj (hspells.symm.trans hother)

/-- A value that is read from a text that can be written gives an integer that can be written. -/
theorem Gives.fits {value : Value} {n : Int} (h : Gives value n)
    (hwritable : value.limit? room = none) : Number.fits n = true := by
  cases h with
  | int n =>
      rw [Value.limit?] at hwritable
      by_contra hfits
      rw [if_neg hfits] at hwritable
      cases hwritable
  | spelled _ _ hspells => exact hspells.fits

/-- An error about a sign is no error about a preset. -/
theorem shownWithin_negative_ne {setting : Setting} {n : Int} (name : Text) :
    (SettingError.negative setting n).shownWithin room ≠ .unknownPreset name := by
  cases hlimit : (SettingError.negative setting n).limit? room with
  | none => rw [SettingError.shownWithin_of_none hlimit]; nofun
  | some passed => rw [SettingError.shownWithin_of_some hlimit]; nofun

/-- A refused mapping is an error. -/
theorem exists_error {entries : List (Text × Value)} (h : Refused entries) :
    ∃ e, ofMapping? room entries = .error e ∧ ∀ name, e ≠ .unknownPreset name := by
  cases hread : readEntries? room entries with
  | error e =>
      refine ⟨e, ?_, (unreadable_of_readEntries? hread).2⟩
      rw [ofMapping?, hread]
      rfl
  | ok given =>
      -- All values can be read, so the last integer of some setting is negative.
      obtain ⟨entry, hmem, hname, hunreadable⟩ | ⟨setting, value, hvalue, n, hneg, hgives⟩ := h
      · exact absurd hunreadable (not_unreadable_of_readEntries? hread entry hmem hname)
      · rw [ofMapping?_of_readEntries? hread, update?]
        cases hfirst : firstNegative? given with
        | some entry =>
            obtain ⟨negative, m⟩ := entry
            exact ⟨_, rfl, shownWithin_negative_ne⟩
        | none =>
            rcases lastGiven?_of_readEntries? hread setting with
              ⟨hnone, -⟩ | ⟨last, m, hlast, hm, hgiven⟩
            · rw [hnone] at hvalue
              cases hvalue
            · obtain rfl := Option.some.inj (hlast.symm.trans hvalue)
              obtain rfl := gives_unique hgives hgiven
              have hsign := firstNegative?_eq_none hfirst hm
              omega

/-- The last entry for a setting is an entry for it. -/
theorem exists_of_lastUnder? {entries : List (Text × Value)} {setting : Setting} {value : Value}
    (h : lastUnder? entries setting = some value) :
    ∃ key, (key, value) ∈ entries ∧ Names key setting := by
  obtain ⟨⟨key, _⟩, hlast, rfl⟩ := Option.map_eq_some_iff.1 h
  obtain ⟨hmem, hname⟩ := List.mem_filter.1 (List.mem_of_getLast? hlast)
  exact ⟨key, hmem, of_decide_eq_true hname⟩

/-- A mapping that is not refused gives each setting the integer of its last entry. -/
theorem exists_ofMapping? {entries : List (Text × Value)} (h : ¬ Refused entries) :
    ∃ columns, ofMapping? room entries = .ok columns ∧ ∀ setting,
      (∀ value ∈ lastUnder? entries setting, Gives value (columns setting)) ∧
        (lastUnder? entries setting = none → columns setting = standard setting) := by
  -- Neither reading nor the check for negative values can fail, as no entry is refused.
  cases hread : readEntries? room entries with
  | error e =>
      obtain ⟨⟨entry, hmem, hname, hunreadable, -⟩, -⟩ := unreadable_of_readEntries? hread
      exact absurd (.inl ⟨entry, hmem, hname, hunreadable⟩) h
  | ok given =>
      rw [ofMapping?_of_readEntries? hread, update?]
      cases hfirst : firstNegative? given with
      | some entry =>
          obtain ⟨setting, n⟩ := entry
          obtain ⟨hn, hneg⟩ := firstNegative?_eq_some hfirst
          rcases lastGiven?_of_readEntries? hread setting with
            ⟨-, hnone⟩ | ⟨value, m, hvalue, hm, hgives⟩
          · rw [hnone] at hn
            cases hn
          · obtain rfl := Option.some.inj (hm.symm.trans hn)
            exact absurd (.inr ⟨setting, value, hvalue, m, hneg, hgives⟩) h
      | none =>
          refine ⟨_, rfl, fun setting => ?_⟩
          rw [withGiven]
          rcases lastGiven?_of_readEntries? hread setting with
            ⟨hnone, hgiven⟩ | ⟨value, m, hvalue, hm, hgives⟩
          · rw [hnone, hgiven]
            exact ⟨nofun, fun _ => rfl⟩
          · rw [hvalue, hm]
            refine ⟨fun other hother => ?_, nofun⟩
            obtain rfl := Option.some.inj hother
            dsimp only
            rwa [Int.toNat_of_nonneg (firstNegative?_eq_none hfirst hm)]

end Columns
end VerilogLayout

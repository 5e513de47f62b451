import VerilogLayout.Proofs.Json.Read

/-!
# Reading what was written

`spells_write` says that a value is written as one of its spellings, from which `read?_write`
follows: what is written is read back. Every text can be written, whatever its code points. A value
that its spelling does not determine is left out: a floating-point number, which is written with
the digits that suffice, a moment, which is written as a text, and a table with a key that stands in
it twice.
-/

namespace VerilogLayout

namespace Table

/-- A new key comes last. -/
theorem insert_of_notMem {table : Table} {key : Text} (h : key ∉ table.map Prod.fst)
    (value : Value) : table.insert key value = table ++ [(key, value)] := by
  induction table with
  | nil => rfl
  | cons entry table ih =>
    rw [List.map_cons, List.mem_cons, not_or] at h
    rw [insert, if_neg (Ne.symm h.1), ih h.2, List.cons_append]

/-- Entries with different keys stay as they are. -/
theorem ofEntries_of_nodup {entries : List (Text × Value)} (h : (entries.map Prod.fst).Nodup) :
    ofEntries entries = entries := by
  have hfold : ∀ table : Table, ((table ++ entries).map Prod.fst).Nodup →
      entries.foldl (fun table entry => table.insert entry.1 entry.2) table = table ++ entries := by
    clear h
    induction entries with
    | nil => exact fun table _ => (List.append_nil table).symm
    | cons entry entries ih =>
      intro table hnodup
      have hnew : entry.1 ∉ table.map Prod.fst := by
        intro hmem
        rw [List.map_append, List.map_cons] at hnodup
        exact (List.nodup_append.1 hnodup).2.2 _ hmem _ List.mem_cons_self rfl
      have happend : (table ++ [entry]) ++ entries = table ++ entry :: entries := by simp
      rw [List.foldl_cons, insert_of_notMem hnew, ih _ (by rw [happend]; exact hnodup), happend]
  exact hfold [] h

end Table

namespace Value

mutual
/-- A value is writable if every spelling of it determines it, and it is neither too long nor too
deep to be read. -/
def isWritable (depth : Nat) : Value → Bool
  | .float _ | .moment _ => false
  | .int n => Number.fits n
  | .list items => 0 < depth && areWritable (depth - 1) items
  | .table entries =>
      0 < depth && decide (entries.map Prod.fst).Nodup && entriesWritable (depth - 1) entries
  | _ => true

/-- All items are writable. -/
def areWritable (depth : Nat) : List Value → Bool
  | [] => true
  | item :: items => isWritable depth item && areWritable depth items

/-- All entries have writable values. -/
def entriesWritable (depth : Nat) : List (Text × Value) → Bool
  | [] => true
  | (_, value) :: entries => isWritable depth value && entriesWritable depth entries
end

end Value

namespace Json

/-- The digit of a small number spells it. -/
theorem spellsHex_digitChar {n : Nat} (h : n < 16) : SpellsHex (Nat.digitChar n) n :=
  ⟨h, by interval_cases n <;> rfl⟩

/-- A control character is written with two zeros and two digits. -/
theorem spellsUnit_hexDigits {n : Nat} (h : n < 0x20) : SpellsUnit (Text.hexDigits 4 n) n := by
  have hdigits : Text.hexDigits 4 n =
      [Nat.digitChar 0, Nat.digitChar 0, Nat.digitChar (n / 16), Nat.digitChar (n % 16)] := by
    interval_cases n <;> rfl
  have hunit := SpellsUnit.mk (spellsHex_digitChar (by decide : 0 < 16))
    (spellsHex_digitChar (by decide : 0 < 16)) (spellsHex_digitChar (by omega : n / 16 < 16))
    (spellsHex_digitChar (by omega : n % 16 < 16))
  have hsum : ((0 * 16 + 0) * 16 + n / 16) * 16 + n % 16 = n := by omega
  rw [hdigits]
  rwa [hsum] at hunit

/-- Every character is written as one of its spellings. -/
theorem spellsBody_escapeChar (c : CodePoint) {body s : Text} (h : SpellsBody body s) :
    SpellsBody (escapeChar c ++ body) (c :: s) := by
  unfold escapeChar
  split
  · next hc => subst hc; exact .short (by decide) h
  split
  · next hc => subst hc; exact .short (by decide) h
  split
  · next hc => subst hc; exact .short (by decide) h
  split
  · next hc => exact .unit (spellsUnit_hexDigits hc) (fun hhigh => by omega) h
  · next hquote hslash _ hcontrol => exact .plain hquote hslash (by omega) h

/-- Every text is written as a string that spells it. -/
theorem spellsString_writeString (s : Text) : SpellsString (writeString s) s := by
  have hbody : SpellsBody (s.flatMap escapeChar) s := by
    induction s with
    | nil => exact .nil
    | cons c s ih =>
      rw [List.flatMap_cons]
      exact spellsBody_escapeChar c ih
  exact .mk hbody

/-- An integer is written with its sign in front of its digits. -/
theorem spellsNumber_ofInt {n : Int} (h : Number.fits n = true) :
    SpellsNumber (Text.ofInt n) (.int n) := by
  have hsize : (Text.ofNat n.natAbs).length ≤ Number.maxDigits := of_decide_eq_true h
  cases n with
  | ofNat n => exact @SpellsNumber.int false n hsize
  | negSucc n => exact @SpellsNumber.int true (n + 1) hsize

theorem isGap_nil : IsGap [] :=
  nofun

theorem isGap_space : IsGap " " :=
  fun c hc => by rw [List.mem_singleton.1 hc]; rfl

/-- Writing a list of items goes on behind a comma and a space. -/
theorem intercalate_comma (s next : Text) (rest : List Text) :
    List.intercalate ", " (s :: next :: rest) =
      s ++ ([] ++ .char ',' :: ((" " : Text) ++ List.intercalate ", " (next :: rest))) := by
  rw [List.intercalate_cons_cons, List.append_assoc]
  rfl

mutual
/-- A value is written as one of its spellings. -/
theorem spells_write : ∀ (depth : Nat) (value : Value), value.isWritable depth = true →
    Spells depth (write value) value
  | _, .null, _ => .literal (by simp [literals, write])
  | _, .bool true, _ => .literal (by simp [literals, write])
  | _, .bool false, _ => .literal (by simp [literals, write])
  | _, .int _, h => .number (spellsNumber_ofInt h)
  | _, .text s, _ => .text (spellsString_writeString s)
  | _ + 1, .list [], _ => .emptyList isGap_nil
  | depth + 1, .list (item :: items), h => by
    have hitems : Value.areWritable depth (item :: items) = true := by
      simpa [Value.isWritable] using h
    exact .list (spellsItems_write depth (item :: items) nofun isGap_nil hitems)
  | _ + 1, .table [], _ => .emptyTable isGap_nil
  | depth + 1, .table (entry :: entries), h => by
    obtain ⟨hfront, hentries⟩ := Bool.and_eq_true_iff.1 h
    have hnodup := of_decide_eq_true (Bool.and_eq_true_iff.1 hfront).2
    have hspells := Spells.table
      (spellsEntries_write depth (entry :: entries) nofun isGap_nil hentries)
    rw [Table.ofEntries_of_nodup hnodup] at hspells
    exact hspells

/-- So are items, a space behind every comma. -/
theorem spellsItems_write : ∀ (depth : Nat) (items : List Value), items ≠ [] → ∀ {gap : Text},
    IsGap gap → Value.areWritable depth items = true →
      SpellsItems depth (gap ++ List.intercalate ", " (writeItems items)) items
  | _, [], h, _, _, _ => absurd rfl h
  | depth, [item], _, gap, hgap, h => by
    have hlast := SpellsItems.last hgap (spells_write depth item (Bool.and_eq_true_iff.1 h).1)
      isGap_nil
    rw [List.append_nil] at hlast
    rw [writeItems, writeItems, List.intercalate_singleton]
    exact hlast
  | depth, item :: next :: items, _, gap, hgap, h => by
    obtain ⟨hitem, hitems⟩ := Bool.and_eq_true_iff.1 h
    -- The space behind the comma belongs to the rest.
    have hmore := SpellsItems.more hgap (spells_write depth item hitem) isGap_nil
      (spellsItems_write depth (next :: items) nofun isGap_space hitems)
    rw [writeItems, writeItems, intercalate_comma]
    exact hmore

/-- So are entries. -/
theorem spellsEntries_write : ∀ (depth : Nat) (entries : List (Text × Value)), entries ≠ [] →
    ∀ {gap : Text}, IsGap gap → Value.entriesWritable depth entries = true →
      SpellsEntries depth (gap ++ List.intercalate ", " (writeEntries entries)) entries
  | _, [], h, _, _, _ => absurd rfl h
  | depth, [(name, value)], _, gap, hgap, h => by
    have hlast := SpellsEntries.last hgap (spellsString_writeString name) isGap_nil isGap_space
      (spells_write depth value (Bool.and_eq_true_iff.1 h).1) isGap_nil
    rw [List.append_nil] at hlast
    rw [writeEntries, writeEntries, List.intercalate_singleton, List.append_assoc]
    exact hlast
  | depth, (name, value) :: next :: entries, _, gap, hgap, h => by
    obtain ⟨hvalue, hentries⟩ := Bool.and_eq_true_iff.1 h
    have hmore := SpellsEntries.more hgap (spellsString_writeString name) isGap_nil isGap_space
      (spells_write depth value hvalue) isGap_nil
      (spellsEntries_write depth (next :: entries) nofun isGap_space hentries)
    rw [writeEntries, writeEntries, intercalate_comma, List.append_assoc, List.append_assoc]
    exact hmore
end

/-- A value is written as a document. -/
theorem isDocument_write {depth : Nat} {value : Value} (h : value.isWritable depth = true) :
    IsDocument depth (write value) value := by
  have hdocument := IsDocument.mk isGap_nil (spells_write depth value h) isGap_nil
  rw [List.nil_append, List.append_nil] at hdocument
  exact hdocument

/-- What is written is read back. -/
theorem read?_write {depth : Nat} {value : Value} (h : value.isWritable depth = true) :
    read? depth (write value) = .ok value :=
  read?_of_isDocument (isDocument_write h)

end Json
end VerilogLayout

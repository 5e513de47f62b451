import VerilogLayout.Proofs.Json.Read

/-!
# Texts that are nested too deep

`TooDeep room s` says that more brackets of `s` are open at once than there is room for.
`not_tooDeep_of_openings_le` says that a text with few brackets is never too deep, be it JSON or
not: every reader takes its text from the front and leaves a suffix of it, and only an opening
bracket takes room. `tooDeep_replicate` has a text for every room that is too deep.
-/

namespace VerilogLayout.Json

/-- Reading the text passes the limit of brackets that may be open at once. -/
def TooDeep (room : Nat) (s : Text) : Prop :=
  ∃ action, read? room s = .error (.limit (.depth action))

/-- No spelling of a value that is nested as deep as there is room for is too deep. -/
theorem IsDocument.not_tooDeep {room : Nat} {s : Text} {value : Value}
    (h : IsDocument room s value) : ¬ TooDeep room s := by
  rintro ⟨action, hread⟩
  rw [read?_of_isDocument h] at hread
  cases hread

/-! ## Many brackets -/

/-- One bracket more than there is room for is too deep. -/
theorem readValue_replicate {room fuel : Nat} (hfuel : 2 * room < fuel) :
    readValue room fuel (List.replicate (room + 1) (CodePoint.char '[')) =
      .error (.limit (.depth decodingArray)) := by
  induction room generalizing fuel with
  | zero =>
      obtain ⟨fuel, rfl⟩ := Nat.exists_eq_add_one_of_ne_zero (Nat.ne_of_gt hfuel)
      rfl
  | succ room ih =>
      obtain ⟨fuel, rfl⟩ : ∃ n, fuel = n + 2 := ⟨fuel - 2, by omega⟩
      have hitems : readItems room (fuel + 1) (List.replicate (room + 1) (CodePoint.char '[')) =
          .error (.limit (.depth decodingArray)) := by
        rw [readItems, ih (by omega)]
        rfl
      rw [List.replicate_succ, readValue, ReadError.entering_one]
      show Except.map _ (readItems room (fuel + 1) (List.replicate (room + 1) _)) = _
      rw [hitems]
      rfl

/-- More opening brackets in a row than there is room for are too deep. -/
theorem tooDeep_replicate (room : Nat) :
    TooDeep room (List.replicate (room + 1) (CodePoint.char '[')) := by
  refine ⟨decodingArray, ?_⟩
  have hlength : (List.replicate (room + 1) (CodePoint.char '[')).length = room + 1 :=
    List.length_replicate
  have hvalue := @readValue_replicate room (2 * (room + 1) + 2) (by omega)
  rw [read?.eq_def]
  split
  · next heq => cases heq
  · show readValue room _ _ >>= _ = _
    rw [hlength]
    have hskip : skipSpace (List.replicate (room + 1) (CodePoint.char '[')) =
        List.replicate (room + 1) (CodePoint.char '[') := rfl
    rw [hskip, hvalue]
    rfl

/-! ## Few brackets -/

/-- The number of opening brackets. -/
def openings (s : Text) : Nat :=
  s.countP fun c : CodePoint => c = '[' || c = '\x7b'

/-- A rest of a text has no more opening brackets. -/
theorem openings_le {s t : Text} (h : t <:+ s) : openings t ≤ openings s :=
  h.sublist.countP_le

variable {α β : Type}

/-- What is read is in front of a suffix of the text, and what goes wrong is no lack of room. -/
inductive ReadsIn (s : Text) : Except (ReadError Fault) (α × Text) → Prop
  | ok {a : α} {rest : Text} (h : rest <:+ s) : ReadsIn s (.ok (a, rest))
  | fault (fault : Fault) : ReadsIn s (.error (.fault fault))
  | digits (count? : Option Nat) : ReadsIn s (.error (.limit (.digits count?)))

namespace ReadsIn

variable {s t : Text} {result : Except (ReadError Fault) (α × Text)}

theorem mono (hsuffix : t <:+ s) (h : ReadsIn t result) : ReadsIn s result := by
  cases h with
  | ok h => exact .ok (h.trans hsuffix)
  | fault fault => exact .fault fault
  | digits count? => exact .digits count?

/-- Reading goes on with what is left. -/
theorem bind {next : α × Text → Except (ReadError Fault) (β × Text)} (h : ReadsIn s result)
    (hnext : ∀ a rest, rest <:+ s → ReadsIn s (next (a, rest))) : ReadsIn s (result >>= next) := by
  cases h with
  | ok h => exact hnext _ _ h
  | fault fault => exact .fault fault
  | digits count? => exact .digits count?

theorem map (f : α → β) (h : ReadsIn s result) :
    ReadsIn s (result.map fun (a, rest) => (f a, rest)) := by
  cases h with
  | ok h => exact .ok h
  | fault fault => exact .fault fault
  | digits count? => exact .digits count?

end ReadsIn

/-- Skipping space leaves a rest of the text. -/
theorem skipSpace_suffix (s : Text) : skipSpace s <:+ s :=
  List.dropWhile_suffix _

/-- Reading a code unit leaves a rest of the text. -/
theorem codeUnit?_suffix {s rest : Text} {unit : Nat} (h : codeUnit? s = some (unit, rest)) :
    rest <:+ s := by
  unfold codeUnit? at h
  split at h
  · next a b c d rest' =>
    simp only [Option.bind_eq_bind, Option.bind_eq_some_iff, Option.pure_def,
      Option.some.injEq, Prod.mk.injEq] at h
    obtain ⟨_, _, _, _, _, _, _, _, _, rfl⟩ := h
    exact ⟨[a, b, c, d], rfl⟩
  · simp at h

/-- Joining surrogates leaves a rest of the text. -/
theorem joinSurrogates_suffix (unit : Nat) (s : Text) : (joinSurrogates unit s).2 <:+ s := by
  unfold joinSurrogates
  dsimp only
  split
  · next after =>
    split
    · next low rest h =>
      split
      · exact (codeUnit?_suffix h).trans ⟨"\\u", rfl⟩
      · exact List.suffix_rfl
    · exact List.suffix_rfl
  · exact List.suffix_rfl

/-- A string is read up to its closing quote. -/
theorem readString_readsIn (opening front s : Text) : ReadsIn s (readString opening front s) := by
  fun_induction readString opening front s with
  | case1 | case3 | case4 | case6 | case8 | case9 => exact .fault _
  | case2 => exact .ok (List.suffix_cons _ _)
  | case5 front after unit rest hunit _ joined ih =>
      have hrest : rest <:+ after := codeUnit?_suffix hunit
      exact ih.mono ((joinSurrogates_suffix unit rest).trans (hrest.trans ⟨"\\u", rfl⟩))
  | case7 front e after _ c _ ih => exact ih.mono ⟨['\\', e], rfl⟩
  | case10 front c s _ _ _ _ _ ih => exact ih.mono (List.suffix_cons c s)

/-- A number is read up to the end of its last part. -/
theorem readNumber_readsIn (s : Text) : ReadsIn s (readNumber s) := by
  unfold readNumber
  split
  next negative body heq =>
    have hbody : body <:+ s := by
      split at heq
      · next after =>
          obtain ⟨-, rfl⟩ := Prod.mk.inj heq
          exact List.suffix_cons _ _
      · obtain ⟨-, rfl⟩ := Prod.mk.inj heq
        exact List.suffix_rfl
    extract_lets whole rest fraction afterFraction exponent afterExponent
    have hrest : afterExponent <:+ s :=
      (List.drop_suffix _ _).trans <| (List.drop_suffix _ _).trans <|
        (List.drop_suffix _ _).trans hbody
    split
    · exact .fault _
    · split
      · split
        · exact .ok hrest
        · exact .fault _
      · split
        · exact .ok hrest
        · exact .digits _

/-- A scalar is read without going deeper. -/
theorem readScalar_readsIn (s : Text) : ReadsIn s (readScalar s) := by
  unfold readScalar
  split
  · exact .ok (List.drop_suffix _ _)
  · exact readNumber_readsIn s

/-- An opening bracket takes room for one. -/
theorem readsIn_entering {room : Nat} {action : Text} {c : CodePoint} {after : Text}
    {next : Nat → Except (ReadError Fault) (α × Text)} (hc : c = '[' ∨ c = '\x7b')
    (h : openings (c :: after) ≤ room)
    (hnext : ∀ room, openings after ≤ room → ReadsIn after (next room)) :
    ReadsIn (c :: after) (ReadError.entering action 1 room next) := by
  have hopen : openings (c :: after) = openings after + 1 :=
    List.countP_cons_of_pos (by simpa using hc)
  rw [hopen] at h
  obtain ⟨room, rfl⟩ := Nat.exists_eq_add_one_of_ne_zero (Nat.ne_zero_of_lt h)
  rw [ReadError.entering_one]
  exact (hnext room (Nat.le_of_succ_le_succ h)).mono (List.suffix_cons c after)

/-- Where there is room for all brackets of a text, a reader does not run out of it. -/
def HasRoom (read : Nat → Text → Except (ReadError Fault) (α × Text)) : Prop :=
  ∀ room s, openings s ≤ room → ReadsIn s (read room s)

/-- A value is one level above its items and entries. -/
theorem hasRoom_readValue {fuel : Nat} (hentries : HasRoom (readEntries · fuel))
    (hitems : HasRoom (readItems · fuel)) : HasRoom (readValue · (fuel + 1)) := by
  intro room s h
  dsimp only
  unfold readValue
  split
  · next after =>
      exact ((readString_readsIn _ _ _).mono (List.suffix_cons _ _)).map _
  · next after =>
      refine readsIn_entering (.inr rfl) h fun room hroom => ?_
      have hskip := skipSpace_suffix after
      split
      · next rest heq => exact .ok ((List.suffix_cons _ _).trans (heq ▸ hskip))
      · have hinside := hentries room _ ((openings_le hskip).trans hroom)
        exact (hinside.mono hskip).map fun entries => Value.table (Table.ofEntries entries)
  · next after =>
      refine readsIn_entering (.inl rfl) h fun room hroom => ?_
      have hskip := skipSpace_suffix after
      split
      · next rest heq => exact .ok ((List.suffix_cons _ _).trans (heq ▸ hskip))
      · have hinside := hitems room _ ((openings_le hskip).trans hroom)
        exact (hinside.mono hskip).map _
  · exact readScalar_readsIn s

/-- An entry is a string, a colon and a value, and the other entries follow a comma. -/
theorem hasRoom_readEntries {fuel : Nat} (hvalue : HasRoom (readValue · fuel))
    (hentries : HasRoom (readEntries · fuel)) : HasRoom (readEntries · (fuel + 1)) := by
  intro room s h
  have hbelow : ∀ {t : Text}, t <:+ s → openings t ≤ room := fun ht => (openings_le ht).trans h
  dsimp only
  unfold readEntries
  split
  · next after =>
      have hafter : after <:+ .char '"' :: after := List.suffix_cons _ _
      refine ((readString_readsIn _ _ _).mono hafter).bind fun name rest hrest => ?_
      dsimp only
      split
      · next behind heq =>
          have hbehind := (List.suffix_cons _ _).trans (heq ▸ (skipSpace_suffix rest).trans hrest)
          have hstart := (skipSpace_suffix behind).trans hbehind
          refine ((hvalue room _ (hbelow hstart)).mono hstart).bind fun value rest hrest => ?_
          dsimp only
          have hskip := (skipSpace_suffix rest).trans hrest
          split
          · next behind heq => exact .ok ((List.suffix_cons _ _).trans (heq ▸ hskip))
          · next behind heq =>
              have hmore := (skipSpace_suffix behind).trans
                ((List.suffix_cons _ _).trans (heq ▸ hskip))
              exact ((hentries room _ (hbelow hmore)).mono hmore).bind
                fun entries rest hrest => .ok hrest
          · exact .fault _
      · exact .fault _
  · exact .fault _

/-- The first item is a value, and the other items follow a comma. -/
theorem hasRoom_readItems {fuel : Nat} (hvalue : HasRoom (readValue · fuel))
    (hitems : HasRoom (readItems · fuel)) : HasRoom (readItems · (fuel + 1)) := by
  intro room s h
  dsimp only
  unfold readItems
  refine (hvalue room s h).bind fun value rest hrest => ?_
  dsimp only
  have hskip : skipSpace rest <:+ s := (skipSpace_suffix rest).trans hrest
  split
  · next behind heq => exact .ok ((List.suffix_cons _ _).trans (heq ▸ hskip))
  · next behind heq =>
      have hmore : skipSpace behind <:+ s :=
        (skipSpace_suffix behind).trans ((List.suffix_cons _ _).trans (heq ▸ hskip))
      exact ((hitems room _ ((openings_le hmore).trans h)).mono hmore).bind
        fun items rest hrest => .ok hrest
  · exact .fault _

/-- No reader runs out of room for the brackets of its text, whatever the fuel is. -/
theorem hasRoom (fuel : Nat) :
    HasRoom (readValue · fuel) ∧ HasRoom (readEntries · fuel) ∧ HasRoom (readItems · fuel) := by
  induction fuel with
  | zero => exact ⟨fun _ _ _ => .fault _, fun _ _ _ => .fault _, fun _ _ _ => .fault _⟩
  | succ fuel ih =>
      obtain ⟨hvalue, hentries, hitems⟩ := ih
      exact ⟨hasRoom_readValue hentries hitems, hasRoom_readEntries hvalue hentries,
        hasRoom_readItems hvalue hitems⟩

/-- A text with no more opening brackets than there is room for is not too deep. -/
theorem not_tooDeep_of_openings_le {room : Nat} {s : Text} (h : openings s ≤ room) :
    ¬ TooDeep room s := by
  rintro ⟨action, hread⟩
  rw [read?.eq_def] at hread
  split at hread
  · cases hread
  · have hskip := skipSpace_suffix s
    have hvalue : ReadsIn (skipSpace s) (readValue room (2 * s.length + 2) (skipSpace s)) :=
      (hasRoom _).1 room _ ((openings_le hskip).trans h)
    cases hresult : readValue room (2 * s.length + 2) (skipSpace s) with
    | ok result =>
        rw [hresult] at hread
        replace hread : (if (skipSpace result.2).isEmpty then Except.ok result.1 else _) =
          Except.error (ReadError.limit (Limit.depth action)) := hread
        split at hread <;> cases hread
    | error e =>
        rw [hresult] at hread hvalue
        obtain rfl := Except.error.inj hread
        cases hvalue

end VerilogLayout.Json

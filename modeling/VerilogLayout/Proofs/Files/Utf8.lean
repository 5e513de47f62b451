import Mathlib.Data.List.Basic
import VerilogLayout.Tree.Load

/-!
# Texts that are written and read back

Encoding a text and decoding the bytes gives the text back: `ofUtf8?_of_toUtf8?`. A text that holds
surrogates has no bytes: `exists_toUtf8?_iff`. A file is read with one line feed for every end of a
line, so what comes back from a file is the text only if no carriage return is in it;
`decodeText?_of_toUtf8?` says what comes back otherwise. -/

namespace VerilogLayout.Text

/-! ## Sequences of bytes

The bytes of a character are given as numbers here, and `bytesOf` makes bytes of them. -/

/-- The bytes with these numbers. -/
def bytesOf (numbers : List Nat) : Bytes :=
  numbers.map UInt8.ofNat

/-- A small number is a byte. -/
theorem toNat_ofNat_of_lt {n : Nat} (h : n < 256) : (UInt8.ofNat n).toNat = n := by
  rw [UInt8.toNat_ofNat']
  exact Nat.mod_eq_of_lt h

/-- A byte within the bounds goes on with a sequence. -/
theorem continuation_cons {low high n : Nat} (hbyte : n < 256) (hlow : low ≤ n) (hhigh : n ≤ high)
    (count : Nat) (rest : Bytes) :
    continuation low high (count + 1) (UInt8.ofNat n :: rest) =
      UInt8.ofNat n :: continuation 0x80 0xbf count rest := by
  rw [continuation, toNat_ofNat_of_lt hbyte, if_pos (by simp [hlow, hhigh])]

/-- Bytes within the bounds go on with a sequence to its end. -/
theorem continuation_bytesOf {tail : List Nat} (h : ∀ n ∈ tail, 0x80 ≤ n ∧ n ≤ 0xbf)
    (rest : Bytes) : continuation 0x80 0xbf tail.length (bytesOf tail ++ rest) = bytesOf tail := by
  induction tail with
  | nil => rfl
  | cons n tail ih =>
      obtain ⟨⟨hlow, hhigh⟩, htail⟩ := List.forall_mem_cons.1 h
      exact (continuation_cons (by omega) hlow hhigh _ _).trans (congrArg _ (ih htail))

/-- A sequence is decoded if its first byte announces it, the second one may stand behind the
first, the others are continuation bytes, and their bits make up the number of a character. -/
theorem go_sequence {c : CodePoint} {first second low high : Nat} (tail : List Nat)
    (hfirst : first < 256) (hbyte : second < 256)
    (hshape : sequenceShape? first = some (tail.length + 2, low, high))
    (hlow : low ≤ second) (hhigh : second ≤ high) (htail : ∀ n ∈ tail, 0x80 ≤ n ∧ n ≤ 0xbf)
    (hnumber : tail.foldl (fun n b => 64 * n + b % 64)
      (64 * firstBits (tail.length + 2) first + second % 64) = c.toNat)
    (position : Nat) (rest : Bytes) :
    ofUtf8?.go position (bytesOf (first :: second :: tail) ++ rest) =
      (ofUtf8?.go (position + (tail.length + 2)) rest).map (c :: ·) := by
  have htake : continuation low high (tail.length + 2 - 1) (bytesOf (second :: tail) ++ rest) =
      bytesOf (second :: tail) :=
    (continuation_cons hbyte hlow hhigh _ _).trans (congrArg _ (continuation_bytesOf htail rest))
  have hlength : (bytesOf (second :: tail)).length = tail.length + 1 := by simp [bytesOf]
  have hbits : (bytesOf (second :: tail)).foldl (fun n b => 64 * n + b.toNat % 64)
      (firstBits (tail.length + 2) first) = c.toNat := by
    rw [← hnumber, bytesOf, List.map_cons, List.foldl_cons, toNat_ofNat_of_lt hbyte,
      List.foldl_map]
    refine List.foldl_ext _ _ _ fun n b hb => ?_
    rw [toNat_ofNat_of_lt (Nat.lt_of_le_of_lt (htail b hb).2 (by decide))]
  show ofUtf8?.go position (UInt8.ofNat first :: (bytesOf (second :: tail) ++ rest)) = _
  rw [ofUtf8?.go, toNat_ofNat_of_lt hfirst, hshape]
  dsimp only
  rw [htake, hlength, if_pos rfl, hbits, CodePoint.ofNat_toNat, ← hlength, List.drop_left]

/-! ## Characters

A number up to `0x7f` is its own byte. Of the others the first byte announces the sequence, and its
bits come in front of six bits from each other byte. -/

/-- The first byte of two tells that there are two. -/
theorem shape_two {v : Nat} (hlow : 0x7f < v) (hhigh : v ≤ 0x7ff) :
    sequenceShape? (v / 64 % 32 + 192) = some (2, 0x80, 0xbf) := by
  unfold sequenceShape?
  rw [if_neg (by omega), if_neg (by omega), if_pos (by omega)]

/-- The second of three bytes lies above the overlong forms and below the surrogates. -/
theorem shape_three {v : Nat} (hlow : 0x7ff < v) (hhigh : v ≤ 0xffff)
    (hvalid : v < 0xd800 ∨ 0xdfff < v) :
    ∃ low high, sequenceShape? (v / 4096 % 16 + 224) = some (3, low, high) ∧
      low ≤ v / 64 % 64 + 128 ∧ v / 64 % 64 + 128 ≤ high := by
  unfold sequenceShape?
  rw [if_neg (by omega), if_neg (by omega), if_neg (by omega)]
  split
  · exact ⟨_, _, rfl, by omega, by omega⟩
  · split
    · exact ⟨_, _, rfl, by omega, by omega⟩
    · rw [if_pos (by omega)]
      exact ⟨_, _, rfl, by omega, by omega⟩

/-- The second of four bytes lies above the overlong forms and below what is past all
characters. -/
theorem shape_four {v : Nat} (hlow : 0xffff < v) (hhigh : v < 0x110000) :
    ∃ low high, sequenceShape? (v / 262144 % 8 + 240) = some (4, low, high) ∧
      low ≤ v / 4096 % 64 + 128 ∧ v / 4096 % 64 + 128 ≤ high := by
  unfold sequenceShape?
  rw [if_neg (by omega), if_neg (by omega), if_neg (by omega), if_neg (by omega),
    if_neg (by omega), if_neg (by omega)]
  split
  · exact ⟨_, _, rfl, by omega, by omega⟩
  · split
    · exact ⟨_, _, rfl, by omega, by omega⟩
    · rw [if_pos (by omega)]
      exact ⟨_, _, rfl, by omega, by omega⟩

/-- The bytes of a character in front are decoded to it. -/
theorem go_utf8EncodeChar (c : Char) (position : Nat) (rest : Bytes) :
    ∃ next, ofUtf8?.go position (String.utf8EncodeChar c ++ rest) =
      (ofUtf8?.go next rest).map (.char c :: ·) := by
  have hvalid : c.toNat < 0xd800 ∨ 0xdfff < c.toNat ∧ c.toNat < 0x110000 := c.valid
  have hbytes : String.utf8EncodeChar c =
      if c.toNat ≤ 0x7f then bytesOf [c.toNat]
      else if c.toNat ≤ 0x7ff then bytesOf [c.toNat / 64 % 32 + 192, c.toNat % 64 + 128]
      else if c.toNat ≤ 0xffff then
        bytesOf [c.toNat / 4096 % 16 + 224, c.toNat / 64 % 64 + 128, c.toNat % 64 + 128]
      else
        bytesOf [c.toNat / 262144 % 8 + 240, c.toNat / 4096 % 64 + 128, c.toNat / 64 % 64 + 128,
          c.toNat % 64 + 128] := rfl
  -- One case for each length of the sequence: the first byte tells the length, the others carry six
  -- bits each.
  rw [hbytes]
  split
  · refine ⟨position + 1, ?_⟩
    show ofUtf8?.go position (UInt8.ofNat c.toNat :: rest) = _
    rw [ofUtf8?.go, toNat_ofNat_of_lt (by omega), sequenceShape?, if_pos (by omega)]
    show (ofUtf8?.go (position + 1) rest).map (CodePoint.ofNat (CodePoint.char c).toNat :: ·) = _
    rw [CodePoint.ofNat_toNat]
  · split
    · refine ⟨_, go_sequence [] (by omega) (by omega)
        (shape_two (by omega) (by omega)) (by omega) (by omega) (List.forall_mem_nil _) ?_ _ _⟩
      show 64 * ((c.toNat / 64 % 32 + 192) % 32) + (c.toNat % 64 + 128) % 64 = c.toNat
      omega
    · split
      · obtain ⟨low, high, hshape, hlow, hhigh⟩ :=
          shape_three (v := c.toNat) (by omega) (by omega) (by omega)
        refine ⟨_, go_sequence [c.toNat % 64 + 128] (by omega) (by omega) hshape hlow
          hhigh (List.forall_mem_singleton.2 (by omega)) ?_ _ _⟩
        show 64 * (64 * ((c.toNat / 4096 % 16 + 224) % 16) + (c.toNat / 64 % 64 + 128) % 64) +
          (c.toNat % 64 + 128) % 64 = c.toNat
        omega
      · obtain ⟨low, high, hshape, hlow, hhigh⟩ :=
          shape_four (v := c.toNat) (by omega) (by omega)
        refine ⟨_, go_sequence [c.toNat / 64 % 64 + 128, c.toNat % 64 + 128] (by omega)
          (by omega) hshape hlow hhigh
          (List.forall_mem_cons.2 ⟨by omega, List.forall_mem_singleton.2 (by omega)⟩) ?_ _ _⟩
        show 64 * (64 * (64 * ((c.toNat / 262144 % 8 + 240) % 8) +
          (c.toNat / 4096 % 64 + 128) % 64) + (c.toNat / 64 % 64 + 128) % 64) +
          (c.toNat % 64 + 128) % 64 = c.toNat
        omega

/-- Characters that are encoded and decoded are the same. -/
theorem ofUtf8?_utf8 (characters : List Char) :
    ofUtf8? (utf8 characters) = .ok (characters.map .char) := by
  have hgo : ∀ position, ofUtf8?.go position (utf8 characters) = .ok (characters.map .char) := by
    induction characters with
    | nil =>
        intro position
        show ofUtf8?.go position [] = .ok []
        rw [ofUtf8?.go]
    | cons c rest ih =>
        intro position
        obtain ⟨next, hnext⟩ := go_utf8EncodeChar c position (utf8 rest)
        show ofUtf8?.go position (String.utf8EncodeChar c ++ utf8 rest) = _
        rw [hnext, ih]
        rfl
  exact hgo 0

/-! ## Surrogates -/

/-- Characters make a text without surrogates. -/
theorem characters?_map_char (characters : List Char) (position : Nat) :
    characters? position (characters.map .char) = .ok characters := by
  induction characters generalizing position with
  | nil => rfl
  | cons c rest ih =>
      show (characters? (position + 1) (rest.map .char)).map (c :: ·) = _
      rw [ih]
      rfl

/-- A text has characters if and only if it is made of them. -/
theorem characters?_eq_ok {s : Text} {position : Nat} {characters : List Char} :
    characters? position s = .ok characters ↔ s = characters.map .char := by
  refine ⟨fun h => ?_, fun h => h ▸ characters?_map_char characters position⟩
  fun_induction characters? position s generalizing characters with
  | case1 position => cases h; rfl
  | case2 position c s ih =>
      cases hrest : characters? (position + 1) s with
      | error e => rw [hrest] at h; cases h
      | ok rest =>
          rw [hrest] at h
          cases h
          exact congrArg (CodePoint.char c :: ·) (ih hrest)
  | case3 position place s => cases h

/-- A text has bytes if and only if there are no surrogates in it. -/
theorem toUtf8?_eq_ok {s : Text} {bytes : Bytes} :
    toUtf8? s = .ok bytes ↔ ∃ characters, s = characters.map .char ∧ bytes = utf8 characters := by
  constructor
  · intro h
    cases hcharacters : characters? 0 s with
    | error e => rw [toUtf8?, hcharacters] at h; cases h
    | ok characters =>
        rw [toUtf8?, hcharacters] at h
        cases h
        exact ⟨characters, characters?_eq_ok.1 hcharacters, rfl⟩
  · rintro ⟨characters, rfl, rfl⟩
    rw [toUtf8?, characters?_map_char]
    rfl

/-- A text that is encoded and decoded is the same. -/
theorem ofUtf8?_of_toUtf8? {s : Text} {bytes : Bytes} (h : toUtf8? s = .ok bytes) :
    ofUtf8? bytes = .ok s := by
  obtain ⟨characters, rfl, rfl⟩ := toUtf8?_eq_ok.1 h
  exact ofUtf8?_utf8 characters

/-- There are no surrogates in the text. -/
def IsEncodable (s : Text) : Prop :=
  ∀ c ∈ s, c.isSurrogate = false

/-- Texts in a row can be encoded if each of them can. -/
theorem isEncodable_append {s t : Text} :
    IsEncodable (s ++ t) ↔ IsEncodable s ∧ IsEncodable t :=
  List.forall_mem_append

/-- Characters can be encoded. -/
theorem isEncodable_map_char (characters : List Char) :
    IsEncodable (characters.map .char) := by
  intro c hc
  obtain ⟨d, -, rfl⟩ := List.mem_map.1 hc
  rfl

/-- The texts that have bytes are those without surrogates. -/
theorem exists_toUtf8?_iff {s : Text} : (∃ bytes, toUtf8? s = .ok bytes) ↔ IsEncodable s := by
  constructor
  · rintro ⟨bytes, h⟩
    obtain ⟨characters, rfl, -⟩ := toUtf8?_eq_ok.1 h
    exact isEncodable_map_char characters
  · intro h
    suffices hs : ∃ characters : List Char, s = characters.map .char by
      obtain ⟨characters, hs⟩ := hs
      exact ⟨_, toUtf8?_eq_ok.2 ⟨characters, hs, rfl⟩⟩
    induction s with
    | nil => exact ⟨[], rfl⟩
    | cons c s ih =>
        obtain ⟨hc, hs⟩ := List.forall_mem_cons.1 h
        obtain ⟨rest, hrest⟩ := ih hs
        cases c with
        | char c => exact ⟨c :: rest, congrArg (CodePoint.char c :: ·) hrest⟩
        | surrogate place => cases hc

/-! ## Names -/

/-- A text that a file can have as its name: there is no null character in it, and each surrogate
stands for a byte that is no UTF-8. -/
structure IsNameable (s : Text) : Prop where
  null : .char '\x00' ∉ s
  byte : ∀ place, .surrogate place ∈ s → 0x480 ≤ place.val ∧ place.val < 0x500

/-- A text is the name of a file if its surrogates stand for bytes. -/
theorem nameError?_eq_none {s : Text} {position : Nat} :
    nameError? position s = none ↔
      ∀ place, .surrogate place ∈ s → 0x480 ≤ place.val ∧ place.val < 0x500 := by
  fun_induction nameError? position s with
  | case1 position => exact iff_of_true rfl nofun
  | case2 position c s ih => simpa using ih
  | case3 position place s hbyte ih =>
      rw [ih]
      constructor
      · rintro h other (_ | ⟨_, hother⟩)
        · exact hbyte
        · exact h other hother
      · exact fun h other hother => h other (List.mem_cons_of_mem _ hother)
  | case4 position place s hbyte =>
      exact iff_of_false nofun fun h => hbyte (h place List.mem_cons_self)

/-- Nothing keeps a text from being a name exactly if it can be one. -/
theorem nameFault?_eq_none {s : Text} : nameFault? s = none ↔ s.IsNameable := by
  unfold nameFault?
  cases hbytes : nameError? 0 s with
  | some e =>
      refine iff_of_false nofun fun h => ?_
      rw [nameError?_eq_none.2 h.byte] at hbytes
      cases hbytes
  | none =>
      dsimp only
      split
      · next hnull => exact iff_of_false nofun fun h => h.null (List.contains_iff_mem.1 hnull)
      · next hnull =>
          exact iff_of_true rfl ⟨mt List.contains_iff_mem.2 hnull, nameError?_eq_none.1 hbytes⟩

/-! ## Ends of lines -/

/-- A text without carriage returns stays as it is. -/
theorem unifyNewlines_eq_self {s : Text} (h : .char '\r' ∉ s) : unifyNewlines s = s := by
  induction s with
  | nil => rfl
  | cons c s ih =>
      obtain ⟨hc, hs⟩ := not_or.1 (mt List.mem_cons.2 h)
      rw [unifyNewlines.eq_4 c s (fun _ hcr _ => hc hcr.symm) (fun hcr => hc hcr.symm), ih hs]

theorem not_mem_unifyNewlines (s : Text) : .char '\r' ∉ unifyNewlines s := by
  induction s using unifyNewlines.induct with
  | case1 => exact List.not_mem_nil
  | case2 s ih =>
      rw [unifyNewlines]
      exact List.not_mem_cons_of_ne_of_not_mem (by decide) ih
  | case3 s hne ih =>
      rw [unifyNewlines.eq_3 s hne]
      exact List.not_mem_cons_of_ne_of_not_mem (by decide) ih
  | case4 c s hpair hne ih =>
      rw [unifyNewlines.eq_4 c s hpair hne]
      exact List.not_mem_cons_of_ne_of_not_mem (fun heq => hne heq.symm) ih

/-- A text stays as it is if and only if there is no carriage return in it. -/
theorem unifyNewlines_eq_self_iff {s : Text} : unifyNewlines s = s ↔ .char '\r' ∉ s :=
  ⟨fun h => h ▸ not_mem_unifyNewlines s, unifyNewlines_eq_self⟩

end VerilogLayout.Text

namespace VerilogLayout.Files

/-- What is read from a file is what was written to it, with one line feed for every end of a
line. -/
theorem decodeText?_of_toUtf8? {s : Text} {bytes : Bytes} (h : Text.toUtf8? s = .ok bytes) :
    decodeText? bytes = .ok (Text.unifyNewlines s) := by
  rw [decodeText?, Text.ofUtf8?_of_toUtf8? h]
  rfl

/-- A file with the bytes of characters is read as these. -/
theorem decodeText?_utf8 (characters : List Char) :
    decodeText? (Text.utf8 characters) = .ok (Text.unifyNewlines (characters.map .char)) :=
  decodeText?_of_toUtf8? (Text.toUtf8?_eq_ok.2 ⟨characters, rfl, rfl⟩)

end VerilogLayout.Files

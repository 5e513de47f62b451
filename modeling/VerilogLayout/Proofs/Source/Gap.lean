import VerilogLayout.Column.Layout
import VerilogLayout.Proofs.Source.Trim

/-!
# Fields with gaps before them

A declaration is written from left to right, each field that it has behind a gap of spaces. Where
the columns are does not matter for what is written: `exists_declaration` says only that no gap
between two fields is empty, and that the first field starts at its column.
-/

namespace VerilogLayout

open Text (Stops)

namespace Line

/-- A field behind a gap; an absent field has none. -/
def gapped (n : Nat) (field : Text) : Text :=
  if field.isEmpty then [] else Text.spaces n ++ field

theorem gapped_nil (n : Nat) : gapped n [] = [] :=
  rfl

theorem gapped_of_ne_nil (n : Nat) {field : Text} (h : field ≠ []) :
    gapped n field = Text.spaces n ++ field :=
  if_neg fun hempty => h (List.isEmpty_iff.1 hempty)

/-- A field behind a gap is a field behind spaces, of which there may be none. -/
theorem gapped_eq (n : Nat) (field : Text) :
    gapped n field = Text.spaces (if field.isEmpty then 0 else n) ++ field := by
  cases field <;> rfl

theorem place_start {field : Text} (h : field ≠ []) (column shift : Nat) :
    (place {} field (column + shift)).text = Text.spaces (column + shift) ++ field := by
  rw [place, if_neg fun hempty => h (List.isEmpty_iff.1 hempty)]
  simp only [append, pad, Line.column, List.isEmpty_nil, if_true, List.nil_append]
  rw [List.length_nil, Nat.zero_max, Int.natCast_zero, Int.add_zero, Int.sub_zero,
    ← Int.natCast_add, Int.toNat_natCast]

/-- Behind other fields a field is placed behind a gap. -/
theorem exists_gap {line : Line} (h : line.text ≠ []) (field : Text) (target : Int) :
    ∃ n, 0 < n ∧ (line.place field target).text = line.text ++ gapped n field := by
  cases field with
  | nil => exact ⟨1, Nat.one_pos, (List.append_nil _).symm⟩
  | cons c field =>
      refine ⟨max 1 (pad line.column target), by omega, ?_⟩
      rw [place, if_neg (by simp), if_neg fun hempty => h (List.isEmpty_iff.1 hempty)]
      rfl

/-- A gap starts with a space. -/
theorem stops_spaces {p : CodePoint → Bool} (hp : p ' ' = false) {n : Nat} (hn : 0 < n) (s : Text) :
    Stops p (Text.spaces n ++ s) := by
  obtain ⟨n, rfl⟩ := Nat.exists_eq_add_one.2 hn
  exact Text.stops_cons.2 hp

theorem stops_gapped {p : CodePoint → Bool} (hp : p ' ' = false) {n : Nat} (hn : 0 < n)
    (field : Text)
    {s : Text} (h : Stops p s) : Stops p (gapped n field ++ s) := by
  cases field with
  | nil => exact h
  | cons c field =>
      rw [gapped_of_ne_nil n (List.cons_ne_nil c field), List.append_assoc]
      exact stops_spaces hp hn _

theorem trimLeft_gapped (n : Nat) (field s : Text) :
    Text.trimLeft (gapped n field ++ s) = Text.trimLeft (field ++ s) := by
  cases field with
  | nil => rfl
  | cons c field =>
      rw [gapped_of_ne_nil n (List.cons_ne_nil c field), List.append_assoc]
      exact List.dropWhile_append_of_pos (Text.allBlank_spaces n)

theorem forall_mem_gapped {p : CodePoint → Prop} (hp : p ' ') {field : Text} (h : ∀ c ∈ field, p c)
    (n : Nat) : ∀ c ∈ gapped n field, p c := by
  cases field with
  | nil => exact List.forall_mem_nil _
  | cons d field =>
      rw [gapped_of_ne_nil n (List.cons_ne_nil d field)]
      refine List.forall_mem_append.2 ⟨fun c hc => ?_, h⟩
      rwa [List.eq_of_mem_replicate hc]

theorem ne_nil_append {line line' : Line} {t : Text} (h : line.text ≠ [])
    (heq : line'.text = line.text ++ t) : line'.text ≠ [] := by
  rw [heq]
  exact List.append_ne_nil_of_left_ne_nil h t

/-- Words behind the last field stand behind one space. -/
theorem text_appendWord (line : Line) (word : Text) :
    (Layout.appendWord line word).text = line.text ++ gapped 1 word := by
  cases word with
  | nil => exact (List.append_nil _).symm
  | cons c word => rfl

/-- What stands between the first word of a declaration and its end. -/
theorem exists_gaps {line : Line} (h : line.text ≠ [])
    (modifiers signing range names dimensions : Text)
    (signingColumn rangeColumn nameColumn dimensionColumn : Int) :
    ∃ a b c d e, (0 < a ∧ 0 < b ∧ 0 < c ∧ 0 < d ∧ 0 < e) ∧
      (((((Layout.appendWord line modifiers).place signing signingColumn).place range
        rangeColumn).place names nameColumn).place dimensions dimensionColumn).text =
        line.text ++ gapped a modifiers ++ gapped b signing ++ gapped c range ++ gapped d names ++
          gapped e dimensions := by
  have hword := text_appendWord line modifiers
  have hfirst := ne_nil_append h hword
  obtain ⟨b, hb, hsigning⟩ := exists_gap hfirst signing signingColumn
  have hsecond := ne_nil_append hfirst hsigning
  obtain ⟨c, hc, hrange⟩ := exists_gap hsecond range rangeColumn
  have hthird := ne_nil_append hsecond hrange
  obtain ⟨d, hd, hnames⟩ := exists_gap hthird names nameColumn
  obtain ⟨e, he, hdimensions⟩ := exists_gap (ne_nil_append hthird hnames) dimensions dimensionColumn
  refine ⟨1, b, c, d, e, ⟨Nat.one_pos, hb, hc, hd, he⟩, ?_⟩
  rw [hdimensions, hnames, hrange, hsigning, hword]

/-- A terminator stands behind a gap that may be empty. -/
theorem exists_end (line : Line) (terminator : Text) (column : Int) :
    ∃ n, (Layout.placeTerminator line terminator column).text =
      line.text ++ gapped n terminator := by
  unfold Layout.placeTerminator
  split
  · next h =>
      rw [h, place, if_neg (by decide)]
      exact ⟨_, rfl⟩
  · refine ⟨0, ?_⟩
    cases terminator with
    | nil => rfl
    | cons c terminator => rfl

/-- The fields of a declaration with gaps before them. -/
theorem exists_declaration {keyword : Text} (h : keyword ≠ [])
    (modifiers signing range names dimensions terminator : Text) (column shift : Nat)
    (signingColumn rangeColumn nameColumn dimensionColumn endColumn : Int) :
    ∃ a b c d e n, (0 < a ∧ 0 < b ∧ 0 < c ∧ 0 < d ∧ 0 < e) ∧
      (Layout.placeTerminator (((((Layout.appendWord (place {} keyword (column + shift))
        modifiers).place signing signingColumn).place range rangeColumn).place names
          nameColumn).place dimensions dimensionColumn) terminator endColumn).text =
        Text.spaces (column + shift) ++ (keyword ++ (gapped a modifiers ++ (gapped b signing ++
          (gapped c range ++ (gapped d names ++ (gapped e dimensions ++
            gapped n terminator)))))) := by
  have hstart := place_start h column shift
  have hne : (place {} keyword (column + shift)).text ≠ [] := by
    rw [hstart]
    exact List.append_ne_nil_of_right_ne_nil _ h
  obtain ⟨a, b, c, d, e, hpos, hgaps⟩ := exists_gaps hne modifiers signing range names dimensions
    signingColumn rangeColumn nameColumn dimensionColumn
  obtain ⟨n, hend⟩ := exists_end (((((Layout.appendWord (place {} keyword (column + shift))
    modifiers).place signing signingColumn).place range rangeColumn).place names
      nameColumn).place dimensions dimensionColumn) terminator endColumn
  refine ⟨a, b, c, d, e, n, hpos, ?_⟩
  rw [hend, hgaps, hstart]
  simp only [List.append_assoc]

end Line

end VerilogLayout

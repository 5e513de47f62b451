import VerilogLayout.Text.Blank
import VerilogLayout.Text.Word

/-!
# Scanning source text

Each scanner reads one thing at the front of a text and returns it with the text behind. A name
and a word are always read to their end, so a scanner has one answer. `append_of_name?` and
`append_of_range?` say that nothing is lost between the two parts.
-/

namespace VerilogLayout.Scan

/-- A letter that a name may start with, or the underscore. -/
def isNameStart (c : CodePoint) : Bool :=
  c.isAlpha || c = '_'

/-- A character that a name may go on with. -/
def isNamePart (c : CodePoint) : Bool :=
  Text.isWord c || c = '$'

/-- The longest name at the front. -/
def name? : Text → Option (Text × Text)
  | [] => none
  | c :: s =>
      if isNameStart c then
        some (c :: s.takeWhile isNamePart, s.dropWhile isNamePart)
      else
        none

/-- The word at the front, if it is one of `keywords`, with the text behind the blanks after
it. -/
def keyword? (keywords : List Text) (s : Text) : Option (Text × Text) :=
  let word := s.takeWhile Text.isWord
  if keywords.contains word then
    some (word, Text.trimLeft (s.dropWhile Text.isWord))
  else
    none

/-- `isSquare c` holds for a square bracket. -/
def isSquare (c : CodePoint) : Bool :=
  c = '[' || c = ']'

/-- A range without square brackets inside. -/
def range? : Text → Option (Text × Text)
  | '[' :: s =>
      match s.dropWhile (!isSquare ·) with
      | ']' :: rest => some ('[' :: (s.takeWhile (!isSquare ·) ++ [.char ']']), rest)
      | _ => none
  | _ => none

theorem append_of_name? {s name rest : Text} (h : name? s = some (name, rest)) :
    name ++ rest = s := by
  cases s with
  | nil => simp [name?] at h
  | cons c s =>
    simp only [name?] at h
    split at h
    · obtain ⟨rfl, rfl⟩ := Prod.mk.inj (Option.some.inj h)
      simp
    · simp at h

theorem ne_nil_of_name? {s name rest : Text} (h : name? s = some (name, rest)) : name ≠ [] := by
  cases s with
  | nil => simp [name?] at h
  | cons c s =>
    simp only [name?] at h
    split at h
    · obtain ⟨rfl, -⟩ := Prod.mk.inj (Option.some.inj h)
      simp
    · simp at h

theorem append_of_range? {s range rest : Text} (h : range? s = some (range, rest)) :
    range ++ rest = s := by
  unfold range? at h
  split at h
  · next s =>
    split at h
    · next rest' hdrop =>
      obtain ⟨rfl, rfl⟩ := Prod.mk.inj (Option.some.inj h)
      have hsplit := List.takeWhile_append_dropWhile (p := (!isSquare ·)) (l := s)
      rw [hdrop] at hsplit
      simpa using hsplit
    · simp at h
  · simp at h

theorem ne_nil_of_range? {s range rest : Text} (h : range? s = some (range, rest)) :
    range ≠ [] := by
  unfold range? at h
  split at h
  · split at h
    · obtain ⟨rfl, -⟩ := Prod.mk.inj (Option.some.inj h)
      simp
    · simp at h
  · simp at h

/-- The text behind a name is shorter. -/
theorem length_lt_of_name? {s name rest : Text} (h : name? s = some (name, rest)) :
    rest.length < s.length := by
  have hpos := List.length_pos_iff.2 (ne_nil_of_name? h)
  rw [← append_of_name? h, List.length_append]
  omega

/-- The text behind a range is shorter. -/
theorem length_lt_of_range? {s range rest : Text} (h : range? s = some (range, rest)) :
    rest.length < s.length := by
  have hpos := List.length_pos_iff.2 (ne_nil_of_range? h)
  rw [← append_of_range? h, List.length_append]
  omega

/-- Trimming makes no text longer. -/
theorem length_trimLeft_le (s : Text) : (Text.trimLeft s).length ≤ s.length :=
  (List.dropWhile_sublist _).length_le

/-- The names that follow, each behind a comma. A comma without a name stays in front of the
rest. -/
def moreNames (s : Text) : List Text × Text :=
  match _hcomma : Text.trimLeft s with
  | ',' :: t =>
      match _hname : name? (Text.trimLeft t) with
      | some (name, rest) =>
          let (names, rest) := moreNames rest
          (name :: names, rest)
      | none => ([], s)
  | _ => ([], s)
termination_by s.length
decreasing_by
  have hlt := length_lt_of_name? _hname
  have ht := length_trimLeft_le t
  have hs := length_trimLeft_le s
  rw [_hcomma, List.length_cons] at hs
  omega

/-- A list of names with commas between them. -/
def names? (s : Text) : Option (List Text × Text) :=
  match name? s with
  | some (name, rest) =>
      let (names, rest) := moreNames rest
      some (name :: names, rest)
  | none => none

/-- The ranges at the front, each with blanks behind it. -/
def ranges (s : Text) : List Text × Text :=
  match _hrange : range? s with
  | some (range, rest) =>
      let (ranges, rest) := ranges (Text.trimLeft rest)
      (range :: ranges, rest)
  | none => ([], s)
termination_by s.length
decreasing_by
  have hlt := length_lt_of_range? _hrange
  have hrest := length_trimLeft_le rest
  omega

end VerilogLayout.Scan

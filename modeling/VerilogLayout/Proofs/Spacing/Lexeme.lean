import VerilogLayout.Proofs.Procedural.Ink
import VerilogLayout.Proofs.Spacing.Glue

/-!
# Lexemes in a row

A leaf of a tree stands for a lexeme and brings a margin of spaces along on both sides. Joined with
its neighbours it stands in a row: `joinPieces_spaced` says that joining puts nothing between two
lexemes but their margins, and one space between words.
-/

namespace VerilogLayout

open Text

namespace Lexeme

/-- The lexeme that a token stands for: its name may fix it, and the end of the file has none. -/
def plain (name : Text) (lexeme : Text) : Text :=
  if lexeme = endOfFile then [] else (byName? name).getD lexeme

/-- The number of spaces on either side of a token. -/
def margin (place : Place) (name : Text) (lexeme : Text) : Nat :=
  if spaced place name lexeme = plain name lexeme then 0 else 1

/-- A lexeme is written plain, or with spaces around. -/
theorem spaced_eq_or (place : Place) (name : Text) (lexeme : Text) :
    spaced place name lexeme = plain name lexeme ∨
      spaced place name lexeme = surrounded (plain name lexeme) := by
  unfold spaced plain
  split
  · exact .inl rfl
  · split
    · next hname => exact .inl (by rw [hname]; rfl)
    · next hname =>
        rw [hname, Option.getD_none]
        unfold spacedOperator
        split_ifs
        all_goals first
          | exact .inl rfl
          | exact .inr rfl

/-- A token is its lexeme between its margins. -/
theorem spaced_eq (place : Place) (name : Text) (lexeme : Text) :
    spaced place name lexeme = spaces (margin place name lexeme) ++ plain name lexeme ++
      spaces (margin place name lexeme) := by
  unfold margin
  split
  · next h => rw [h]; simp [spaces]
  · next h => exact (spaced_eq_or place name lexeme).resolve_left h

/-- A token without a lexeme has no margins. -/
theorem spaced_of_plain_eq_nil (place : Place) {name : Text} {lexeme : Text}
    (h : plain name lexeme = []) : spaced place name lexeme = [] := by
  unfold plain at h
  unfold spaced
  split at h
  · next hend => rw [if_pos hend]; rfl
  · next hend =>
      rw [if_neg hend]
      cases hname : byName? name with
      | some text => rwa [hname] at h
      | none =>
          rw [hname, Option.getD_none] at h
          subst h
          rfl

/-! ## Words and operators -/

/-- `isWordPart c` holds for the characters of words: letters, digits, `_` and `$`. -/
def isWordPart (c : CodePoint) : Bool :=
  isWord c || c = '$'

/-- An identifier, a keyword, a number or a system name. -/
def IsWord (s : Text) : Prop :=
  s ≠ [] ∧ ∀ c ∈ s, isWordPart c

instance (s : Text) : Decidable (IsWord s) :=
  inferInstanceAs (Decidable (s ≠ [] ∧ ∀ c ∈ s, isWordPart c))

/-- The operators between two operands and in front of one. -/
def operators : List Text :=
  binary ++ unary

/-- The lexemes that are written with spaces wherever they stand. -/
def alwaysSpaced : List Text :=
  ["?", ":", "=", "<="]

/-- No operator is a word. -/
theorem not_isWord_of_mem {s : Text} (h : s ∈ alwaysSpaced ++ operators) : ¬ IsWord s := by
  have hall : (alwaysSpaced ++ operators).all fun s => s.any fun c => !isWordPart c := by
    decide +kernel
  obtain ⟨c, hc, hpart⟩ := List.any_eq_true.1 (List.all_eq_true.1 hall s h)
  intro hword
  rw [hword.2 c hc] at hpart
  cases hpart

/-- No word holds a space. -/
theorem space_not_mem_of_isWord {s : Text} (h : IsWord s) : .char ' ' ∉ s := by
  intro hmem
  have hpart := h.2 ' ' hmem
  revert hpart
  decide +kernel

theorem space_not_mem_of_mem_operators : ∀ s ∈ operators, .char ' ' ∉ s := by
  decide +kernel

/-- Words have no margins. -/
theorem margin_eq_zero_of_isWord (place : Place) {name : Text} {lexeme : Text}
    (h : IsWord (plain name lexeme)) : margin place name lexeme = 0 := by
  refine if_pos ?_
  have hend : lexeme ≠ endOfFile := by
    rintro rfl
    exact h.1 rfl
  cases hname : byName? name with
  | some text => rw [spaced, plain, if_neg hend, if_neg hend, hname]; rfl
  | none =>
      have hplain : plain name lexeme = lexeme := by rw [plain, if_neg hend, hname]; rfl
      rw [hplain] at h ⊢
      have hne : ∀ s ∈ alwaysSpaced ++ operators, lexeme ≠ s := by
        rintro s hmem rfl
        exact not_isWord_of_mem hmem h
      have hbinary : binary.contains lexeme = false := by
        rw [List.contains_eq_mem, decide_eq_false_iff_not]
        exact fun hmem => hne lexeme (by simp [operators, hmem]) rfl
      have hstar : ¬(lexeme = "*" ∧ place.parent = some ("event_control" : Text)) :=
        fun h => hne "*" (by decide) h.1
      have hequals : ¬(lexeme = "=" ∨ lexeme = "<=") :=
        not_or.2 ⟨hne "=" (by decide), hne "<=" (by decide)⟩
      unfold spaced
      rw [if_neg hend, hname]
      dsimp only
      rw [if_neg (hne "?" (by decide)), if_neg (hne ":" (by decide)), if_neg hequals,
        if_neg hstar, hbinary, if_neg Bool.false_ne_true, ite_self]

end Lexeme

/-- A leaf of a tree at its place. -/
structure Leaf where
  place : Lexeme.Place
  name : Text
  value : Text
deriving DecidableEq, Repr

namespace Leaf

/-- The lexeme that the leaf stands for. -/
def lexeme (leaf : Leaf) : Text :=
  Lexeme.plain leaf.name leaf.value

/-- The leaf with its margins. -/
def spaced (leaf : Leaf) : Text :=
  Lexeme.spaced leaf.place leaf.name leaf.value

/-- The number of spaces on either side of the leaf. -/
def margin (leaf : Leaf) : Nat :=
  Lexeme.margin leaf.place leaf.name leaf.value

/-- The number of spaces between neighbours: their margins, and one between two words. -/
def gap (a b : Leaf) : Nat :=
  a.margin +
    (if a.margin = 0 ∧ a.lexeme.getLast?.any isWord ∧ b.lexeme.head?.any isWord then 1 else 0) +
    b.margin

/-- The lexemes of leaves one behind the other, with the gaps between them. -/
def row : List Leaf → Text
  | [] => []
  | [leaf] => leaf.lexeme
  | a :: b :: rest => a.lexeme ++ spaces (gap a b) ++ row (b :: rest)

/-- An operator that is written without spaces: one for a single operand, a star that is an event,
and any that stands in front of an operand. -/
def IsAlone (leaf : Leaf) : Prop :=
  leaf.lexeme ∈ Lexeme.unary ∨
    leaf.lexeme = ("*" : Text) ∧ leaf.place.parent = some ("event_control" : Text) ∨
    leaf.place.parent = some ("unary_operator" : Text) ∨
    leaf.place.parent ≠ some ("binary_operator" : Text) ∧ leaf.place.isFirst = true

/-- A leaf is written with its margin on both sides. -/
theorem spaced_eq (leaf : Leaf) :
    leaf.spaced = spaces leaf.margin ++ leaf.lexeme ++ spaces leaf.margin :=
  Lexeme.spaced_eq leaf.place leaf.name leaf.value

/-- A row starts with the lexeme of its first leaf. -/
theorem row_cons (leaf : Leaf) (rest : List Leaf) :
    ∃ back, row (leaf :: rest) = leaf.lexeme ++ back := by
  cases rest with
  | nil => exact ⟨[], (List.append_nil _).symm⟩
  | cons next rest => exact ⟨_, List.append_assoc _ _ _⟩

/-! ## Joined leaves are rows -/

/-- A leaf with a tight lexeme is solid, with its margins, too. -/
theorem isSolid_spaced {leaf : Leaf} (h : leaf.lexeme.IsTight) : Spacing.IsSolid leaf.spaced := by
  intro hblank
  rw [spaced_eq] at hblank
  have hlexeme := (List.forall_mem_append.1 (List.forall_mem_append.1 hblank).1).2
  exact Lexeme.spaced_of_plain_eq_nil _ (Spacing.isSolid_of_isTight h hlexeme)

/-- A leaf is glued to a row with the gap in between. -/
theorem glue_spaced (a b : Leaf) (rest : List Leaf) (back : Text) (hb : b.lexeme.IsTight)
    (hne : b.lexeme ≠ []) :
    Spacing.glue a.spaced (spaces b.margin ++ row (b :: rest) ++ back) =
      spaces a.margin ++ row (a :: b :: rest) ++ back := by
  have hspace : ∀ n, spaces (n + 1) = spaces n ++ (" " : Text) := fun n => List.replicate_succ'
  have hplus : ∀ m n, spaces m ++ spaces n = spaces (m + n) := fun m n =>
    List.replicate_append_replicate
  obtain ⟨c, s, hs⟩ := List.exists_cons_of_ne_nil hne
  obtain ⟨after, hafter⟩ := row_cons b rest
  have hstops : Stops isBlank (row (b :: rest) ++ back) := by
    rw [hafter, hs]
    exact stops_cons.2 (stops_cons.1 (hs ▸ hb.head))
  have hhead : (trimLeft (spaces b.margin ++ row (b :: rest) ++ back)).head? = b.lexeme.head? := by
    rw [List.append_assoc, trimLeft_append (allBlank_spaces _) hstops, hafter, hs]
    rfl
  -- A blank is only added where no margin parts two words.
  have hneeds : Spacing.needsSpace a.spaced (spaces b.margin ++ row (b :: rest) ++ back) =
      decide (a.margin = 0 ∧ a.lexeme.getLast?.any isWord ∧ b.lexeme.head?.any isWord) := by
    rw [Spacing.needsSpace, hhead, spaced_eq]
    cases hmargin : a.margin with
    | zero => simp [spaces]
    | succ n =>
        have hblank : isWord ' ' = false := isWord_eq_false rfl
        rw [hspace, ← List.append_assoc, List.getLast?_append]
        simp [hblank]
  unfold Spacing.glue
  rw [hneeds, spaced_eq a]
  simp only [row, gap, decide_eq_true_eq]
  split
  · next hwords =>
      rw [hwords.1, Nat.zero_add, ← hplus]
      simp [spaces]
  · rw [Nat.add_zero, ← hplus]
    simp

/-- Leaves that have lexemes are joined to a row, with the margins of its ends around it. -/
theorem joinPieces_spaced {leaf : Leaf} {rest : List Leaf}
    (h : ∀ a ∈ leaf :: rest, a.lexeme.IsTight ∧ a.lexeme ≠ []) :
    ∃ n, Spacing.joinPieces ((leaf :: rest).map spaced) =
      spaces leaf.margin ++ row (leaf :: rest) ++ spaces n := by
  induction rest generalizing leaf with
  | nil => exact ⟨leaf.margin, (Spacing.nil_glue _).trans leaf.spaced_eq⟩
  | cons next rest ih =>
      obtain ⟨-, hrest⟩ := List.forall_mem_cons.1 h
      obtain ⟨n, hn⟩ := ih hrest
      refine ⟨n, ?_⟩
      have hsolid : ∀ piece ∈ (next :: rest).map spaced, Spacing.IsSolid piece := by
        intro piece hmem
        obtain ⟨a, ha, rfl⟩ := List.mem_map.1 hmem
        exact isSolid_spaced (hrest a ha).1
      rw [List.map_cons, Spacing.joinPieces_cons hsolid, hn]
      have hnext := hrest next List.mem_cons_self
      exact glue_spaced leaf next rest (spaces n) hnext.1 hnext.2

end Leaf
end VerilogLayout

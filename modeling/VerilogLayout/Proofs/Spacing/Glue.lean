import VerilogLayout.Proofs.Source.Trim
import VerilogLayout.Spacing.Join

/-!
# Joining pieces in groups

Joining adds a space where a word ends in front of a piece that begins with a word, and nothing
else: `foldl_glue_eq` writes joined pieces out with these gaps, which depend on the pieces alone.
Pieces may be joined in groups first unless blanks stand between two words: they hide the word in
front of them from what follows, but not if they are in the group of the second word.
`groupable_iff` says that this is all that makes groups matter; read `joinPieces_cut` first.
-/

namespace VerilogLayout.Spacing

open Text

/-- A text that is empty or holds a character that is no blank. -/
def IsSolid (s : Text) : Prop :=
  AllBlank s → s = []

/-- A tight text is solid. -/
theorem isSolid_of_isTight {s : Text} (h : IsTight s) : IsSolid s := by
  intro hblank
  cases s with
  | nil => rfl
  | cons c s =>
      have hhead : isBlank c = false := stops_cons.1 h.head
      rw [hblank c List.mem_cons_self] at hhead
      cases hhead

/-- What is added between a text and the next piece. -/
def gap (front piece : Text) : Text :=
  if needsSpace front piece then " " else []

/-- What is added in front of each piece, behind the text `front` without anything added. -/
def gaps (front : Text) : List Text → List Text
  | [] => []
  | piece :: rest => gap front piece :: gaps (front ++ piece) rest

/-- The text of the pieces does not depend on groups in which they are joined first. -/
def Groupable (pieces : List Text) : Prop :=
  ∀ groups : List (List Text), groups.flatten = pieces →
    joinPieces (groups.map joinPieces) = joinPieces pieces

/-- Blanks stand between a word that ends and a piece that begins with a word. -/
def BlankBetweenWords (pieces : List Text) : Prop :=
  ∃ front blanks next rest, pieces = front ++ (blanks ++ next :: rest) ∧
    needsSpace front.flatten next ∧ AllBlank blanks.flatten ∧ blanks.flatten ≠ []

/-! ## Gaps -/

/-- A gap is empty or a space. -/
theorem gap_eq_or (front piece : Text) : gap front piece = [] ∨ gap front piece = " " := by
  unfold gap
  split
  · exact .inr rfl
  · exact .inl rfl

/-- Gluing puts the gap in between. -/
theorem glue_eq (front piece : Text) : glue front piece = front ++ gap front piece ++ piece := by
  unfold glue gap
  split
  · rfl
  · rw [List.append_nil]

/-- Only the last character of a text has an influence on what may follow. -/
theorem gap_congr {front other : Text} (h : front.getLast? = other.getLast?) (piece : Text) :
    gap front piece = gap other piece := by
  rw [gap, gap, needsSpace, needsSpace, h]

/-- Texts that end alike do so with a piece behind. -/
theorem getLast?_append_congr {front other : Text} (h : front.getLast? = other.getLast?)
    (piece : Text) : (front ++ piece).getLast? = (other ++ piece).getLast? := by
  rw [List.getLast?_append, List.getLast?_append, h]

/-- Glued texts end as without the gap. -/
theorem getLast?_glue (front piece : Text) :
    (glue front piece).getLast? = (front ++ piece).getLast? := by
  cases piece with
  | nil => rw [glue_nil, List.append_nil]
  | cons c piece =>
      simp [glue_eq, List.getLast?_append, List.getLast?_cons]

/-- Joined pieces are the pieces with their gaps. -/
theorem foldl_glue_eq (pieces : List Text) {front other : Text}
    (h : front.getLast? = other.getLast?) :
    pieces.foldl glue front =
      front ++ (List.zipWith (· ++ ·) (gaps other pieces) pieces).flatten := by
  induction pieces generalizing front other with
  | nil => simp [gaps]
  | cons piece rest ih =>
      have hlast : (glue front piece).getLast? = (other ++ piece).getLast? :=
        (getLast?_glue front piece).trans (getLast?_append_congr h piece)
      rw [List.foldl_cons, ih hlast, glue_eq, gap_congr h, gaps, List.zipWith_cons_cons,
        List.flatten_cons]
      simp only [List.append_assoc]

/-- There is a gap for each piece. -/
theorem length_gaps (front : Text) (pieces : List Text) :
    (gaps front pieces).length = pieces.length := by
  induction pieces generalizing front with
  | nil => rfl
  | cons piece rest ih => rw [gaps, List.length_cons, ih, List.length_cons]

/-- All gaps are empty or a space. -/
theorem eq_or_of_mem_gaps {front : Text} {pieces : List Text} :
    ∀ g ∈ gaps front pieces, g = [] ∨ g = " " := by
  induction pieces generalizing front with
  | nil => simp [gaps]
  | cons piece rest ih => exact List.forall_mem_cons.2 ⟨gap_eq_or front piece, ih⟩

/-- Joined pieces end as the pieces do. -/
theorem getLast?_joinPieces (pieces : List Text) :
    (joinPieces pieces).getLast? = pieces.flatten.getLast? := by
  suffices h : ∀ front other : Text, front.getLast? = other.getLast? →
      (pieces.foldl glue front).getLast? = (other ++ pieces.flatten).getLast? from h [] [] rfl
  induction pieces with
  | nil => intro front other h; simpa using h
  | cons piece rest ih =>
      intro front other h
      rw [List.foldl_cons, List.flatten_cons, ← List.append_assoc]
      exact ih _ _ ((getLast?_glue front piece).trans (getLast?_append_congr h piece))

/-! ## Cutting pieces in two -/

/-- A text in front stays in front. -/
theorem foldl_glue_append (front : Text) {text : Text} (hne : text ≠ []) (pieces : List Text) :
    pieces.foldl glue (front ++ text) = front ++ pieces.foldl glue text := by
  have hlast : (front ++ text).getLast? = text.getLast? := by
    rw [List.getLast?_append, List.getLast?_eq_some_getLast hne, Option.some_or]
  rw [foldl_glue_eq pieces hlast, foldl_glue_eq pieces rfl, List.append_assoc]

/-- Blanks are added as they are. -/
theorem foldl_glue_blanks (front : Text) {blanks : List Text} (h : AllBlank blanks.flatten) :
    blanks.foldl glue front = front ++ blanks.flatten := by
  induction blanks generalizing front with
  | nil => exact (List.append_nil front).symm
  | cons piece rest ih =>
      obtain ⟨hpiece, hrest⟩ := List.forall_mem_append.1 h
      have hnone : gap front piece = [] := by
        rw [gap, needsSpace, trimLeft, List.dropWhile_eq_nil_iff.2 hpiece]
        simp
      rw [List.foldl_cons, glue_eq, hnone, List.append_nil, ih _ hrest, List.flatten_cons,
        List.append_assoc]

/-- A gap is seen from the first character that is no blank. -/
theorem gap_blanks_append (front : Text) {blanks next : Text} (hblanks : AllBlank blanks)
    (hnext : ¬ AllBlank next) (text : Text) :
    gap front (blanks ++ (next ++ text)) = gap front next := by
  have htrim : trimLeft next ≠ [] := fun hempty => hnext (List.dropWhile_eq_nil_iff.1 hempty)
  have hhead : (trimLeft (blanks ++ (next ++ text))).head? = (trimLeft next).head? := by
    rw [trimLeft, List.dropWhile_append_of_pos hblanks, List.dropWhile_append,
      if_neg (by simpa [trimLeft] using htrim), List.head?_append, ← trimLeft,
      List.head?_eq_some_head htrim, Option.some_or]
  rw [gap, gap, needsSpace, needsSpace, hhead]

/-- No word ends in blanks. -/
theorem gap_of_blanks (front : Text) {blanks : Text} (hblanks : AllBlank blanks)
    (hne : blanks ≠ []) (next : Text) : gap (front ++ blanks) next = [] := by
  have hlast := isWord_eq_false (hblanks _ (List.getLast_mem hne))
  rw [gap, needsSpace, List.getLast?_append, List.getLast?_eq_some_getLast hne]
  simp [hlast]

variable (front : List Text) {blanks : List Text} {next : Text} (rest : List Text)
  (hblanks : AllBlank blanks.flatten) (hnext : ¬ AllBlank next)
include hblanks hnext

/-- Behind blanks, a piece is joined with the gap that the text in front of it calls for. -/
theorem foldl_glue_cut (text : Text) :
    (blanks ++ next :: rest).foldl glue text =
      text ++ blanks.flatten ++ gap (text ++ blanks.flatten) next ++ rest.foldl glue next := by
  have hne : next ≠ [] := by
    rintro rfl
    exact hnext allBlank_nil
  rw [List.foldl_append, foldl_glue_blanks text hblanks, List.foldl_cons, glue_eq,
    foldl_glue_append _ hne]

/-- Where the row is cut in two, the piece is joined with the gap that the text in front of the
blanks calls for. -/
theorem glue_joinPieces_cut :
    glue (joinPieces front) (joinPieces (blanks ++ next :: rest)) =
      joinPieces front ++ gap front.flatten next ++ blanks.flatten ++ rest.foldl glue next := by
  have hne : next ≠ [] := by
    rintro rfl
    exact hnext allBlank_nil
  have hjoined : joinPieces (blanks ++ next :: rest) =
      blanks.flatten ++ rest.foldl glue next := by
    rw [joinPieces, foldl_glue_cut rest hblanks hnext]
    by_cases hempty : blanks.flatten = []
    · simp [hempty, gap, needsSpace]
    · rw [gap_of_blanks [] hblanks hempty, List.nil_append, List.append_nil]
  have hgap : gap (joinPieces front) (blanks.flatten ++ rest.foldl glue next) =
      gap front.flatten next := by
    rw [foldl_glue_eq rest rfl, gap_blanks_append _ hblanks hnext,
      gap_congr (getLast?_joinPieces front)]
  rw [hjoined, glue_eq, hgap]
  simp only [List.append_assoc]

omit hblanks hnext

/-- Pieces are blanks, or there is a first one that is not. -/
theorem exists_first_piece (pieces : List Text) :
    AllBlank pieces.flatten ∨ ∃ blanks next rest, pieces = blanks ++ next :: rest ∧
      AllBlank blanks.flatten ∧ ¬ AllBlank next := by
  induction pieces with
  | nil => exact .inl allBlank_nil
  | cons piece rest ih =>
      by_cases hpiece : AllBlank piece
      · obtain hrest | ⟨blanks, next, after, rfl, hblanks, hnext⟩ := ih
        · exact .inl (List.forall_mem_append.2 ⟨hpiece, hrest⟩)
        · exact .inr ⟨piece :: blanks, next, after, rfl,
            List.forall_mem_append.2 ⟨hpiece, hblanks⟩, hnext⟩
      · exact .inr ⟨[], piece, rest, rfl, allBlank_nil, hpiece⟩

/-- Pieces may be cut in two where no blanks stand between two words. -/
theorem joinPieces_cut {front others : List Text} (h : ¬ BlankBetweenWords (front ++ others)) :
    glue (joinPieces front) (joinPieces others) = joinPieces (front ++ others) := by
  have hall : joinPieces (front ++ others) = others.foldl glue (joinPieces front) :=
    List.foldl_append
  obtain hblanks | ⟨blanks, next, rest, rfl, hblanks, hnext⟩ := exists_first_piece others
  · have hothers : joinPieces others = others.flatten := foldl_glue_blanks [] hblanks
    have hone : AllBlank [others.flatten].flatten := by simpa using hblanks
    have hglue := foldl_glue_blanks (joinPieces front) hone
    rw [hall, hothers, foldl_glue_blanks _ hblanks]
    simpa using hglue
  · rw [hall, foldl_glue_cut rest hblanks hnext, glue_joinPieces_cut front rest hblanks hnext]
    -- The two texts differ in what the gap sees in front of it: the blanks, or what is before them.
    by_cases hempty : blanks.flatten = []
    · rw [hempty, List.append_nil, List.append_nil, gap_congr (getLast?_joinPieces front)]
    · have hapart : ¬ needsSpace front.flatten next := fun hneeds =>
        h ⟨front, blanks, next, rest, rfl, hneeds, hblanks, hempty⟩
      rw [gap_of_blanks _ hblanks hempty, gap, if_neg hapart]
      simp only [List.append_assoc, List.append_nil]

/-! ## Groups -/

theorem BlankBetweenWords.append {pieces : List Text} (h : BlankBetweenWords pieces)
    (others : List Text) : BlankBetweenWords (pieces ++ others) := by
  obtain ⟨front, blanks, next, rest, rfl, hneeds, hblanks, hne⟩ := h
  exact ⟨front, blanks, next, rest ++ others, by simp, hneeds, hblanks, hne⟩

/-- More pieces in front leave blanks between words. -/
theorem BlankBetweenWords.prepend {pieces : List Text} (h : BlankBetweenWords pieces)
    (others : List Text) : BlankBetweenWords (others ++ pieces) := by
  obtain ⟨front, blanks, next, rest, rfl, hneeds, hblanks, hne⟩ := h
  refine ⟨others ++ front, blanks, next, rest, by simp, ?_, hblanks, hne⟩
  have hfront : front.flatten ≠ [] := by
    intro hempty
    simp [hempty, needsSpace] at hneeds
  rw [needsSpace, List.flatten_append, List.getLast?_append,
    List.getLast?_eq_some_getLast hfront, Option.some_or, ← List.getLast?_eq_some_getLast hfront]
  exact hneeds

/-- Blanks between words are a piece of their own that is not the first. -/
theorem not_blankBetweenWords {pieces : List Text} (h : ∀ piece ∈ pieces.tail, IsSolid piece) :
    ¬ BlankBetweenWords pieces := by
  rintro ⟨front, blanks, next, rest, rfl, hneeds, hblanks, hne⟩
  cases front with
  | nil => simp [needsSpace] at hneeds
  | cons first front =>
      refine hne (List.flatten_eq_nil_iff.2 fun piece hmem => ?_)
      exact h piece (by simp [hmem]) fun c hc => hblanks c (List.mem_flatten.2 ⟨piece, hmem, hc⟩)

theorem joinPieces_cons {pieces : List Text} (h : ∀ piece ∈ pieces, IsSolid piece)
    (piece : Text) : joinPieces (piece :: pieces) = glue piece (joinPieces pieces) := by
  have hnone : ¬ BlankBetweenWords ([piece] ++ pieces) := not_blankBetweenWords h
  have hcut := joinPieces_cut hnone
  rw [joinPieces, List.foldl_cons, nil_glue] at hcut
  exact hcut.symm

/-- Groups are joined one after the other. -/
theorem foldl_groups (groups : List (List Text)) (front : List Text)
    (h : ¬ BlankBetweenWords (front ++ groups.flatten)) :
    (groups.map joinPieces).foldl glue (joinPieces front) =
      joinPieces (front ++ groups.flatten) := by
  induction groups generalizing front with
  | nil => simp
  | cons pieces rest ih =>
      rw [List.flatten_cons, ← List.append_assoc] at h ⊢
      rw [List.map_cons, List.foldl_cons, joinPieces_cut (mt (·.append rest.flatten) h), ih _ h]

/-- Blanks between two words are all that makes groups matter. -/
theorem groupable_iff (pieces : List Text) : Groupable pieces ↔ ¬ BlankBetweenWords pieces := by
  constructor
  · rintro hgroup ⟨front, blanks, next, rest, rfl, hneeds, hblanks, hne⟩
    have hnext : ¬ AllBlank next := by
      intro hblank
      rw [needsSpace, trimLeft, List.dropWhile_eq_nil_iff.2 hblank] at hneeds
      simp at hneeds
    have hcut := hgroup [front, blanks ++ next :: rest] (by simp)
    have hpair : joinPieces ([front, blanks ++ next :: rest].map joinPieces) =
        glue (joinPieces front) (joinPieces (blanks ++ next :: rest)) := by
      simp [joinPieces]
    have hall : joinPieces (front ++ (blanks ++ next :: rest)) =
        (blanks ++ next :: rest).foldl glue (joinPieces front) := List.foldl_append
    rw [hpair, hall, foldl_glue_cut rest hblanks hnext,
      glue_joinPieces_cut front rest hblanks hnext, gap_of_blanks _ hblanks hne, gap,
      if_pos hneeds] at hcut
    have hlength := congrArg List.length hcut
    simp at hlength
  · rintro h groups rfl
    exact foldl_groups groups [] h

/-- Empty pieces make no difference. -/
theorem joinPieces_filter (pieces : List Text) :
    joinPieces (pieces.filter fun piece => !piece.isEmpty) = joinPieces pieces := by
  suffices h : ∀ front, (pieces.filter fun piece => !piece.isEmpty).foldl glue front =
      pieces.foldl glue front from h []
  induction pieces with
  | nil => exact fun _ => rfl
  | cons piece rest ih =>
      intro front
      cases piece with
      | nil => rw [List.filter_cons_of_neg (by simp), List.foldl_cons, glue_nil, ih]
      | cons c piece => rw [List.filter_cons_of_pos (by simp), List.foldl_cons, List.foldl_cons, ih]

end VerilogLayout.Spacing

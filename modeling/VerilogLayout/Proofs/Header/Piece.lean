import VerilogLayout.Proofs.Header.Whole

/-!
# Pieces of a source text

`pieces` cuts a text from the left: a comment goes up to its end, whatever stands in it, and all
that is outside of comments is single characters. `uncommented` is the text without its comments.
An opening without a closing behind it is no comment, here and for `withoutBlockComments`.
`byPieces` is induction along the pieces, `byBlocks` along the block comments alone.
-/

namespace VerilogLayout

namespace Text

variable {a b : CodePoint}

/-- A text without a pair has none at its start and none behind. -/
theorem includes_cons_eq_false {c : CodePoint} {s : Text} :
    includes (c :: s) [a, b] = false ↔
      ¬ (c = a ∧ s.head? = some b) ∧ includes s [a, b] = false := by
  rw [includes_cons, Bool.or_eq_false_iff, decide_eq_false_iff_not]

/-- A pair is not found if and only if the text does not include it. -/
theorem find?_eq_none {s t : Text} : find? t s = none ↔ includes s t = false := by
  rw [includes, Option.isSome_eq_false_iff, Option.isNone_iff_eq_none]

/-- A text that has the two characters can be cut where they stand for the first time. -/
theorem exists_first {s : Text} (h : includes s [a, b] ≠ false) :
    ∃ front behind, s = front ++ a :: b :: behind ∧ includes front [a, b] = false := by
  have hfirst := includes_before (a := a) (b := b) s
  obtain ⟨happend, hnil | ⟨behind, hbehind⟩⟩ := before_append_drop (a := a) (b := b) s
  · rw [hnil, List.append_nil] at happend
    rw [happend] at hfirst
    exact absurd hfirst h
  · rw [← hbehind] at happend
    exact ⟨_, behind, happend.symm, hfirst⟩

/-- A pair is found behind a text that does not include it. -/
theorem find?_append {front : Text} (hne : a ≠ b) (h : includes front [a, b] = false)
    (behind : Text) : find? [a, b] (front ++ a :: b :: behind) = some front.length := by
  induction front with
  | nil => exact (find?_cons a (b :: behind)).trans (if_pos ⟨rfl, rfl⟩)
  | cons c front ih =>
      obtain ⟨hpair, hfront⟩ := includes_cons_eq_false.1 h
      rw [List.cons_append, find?_cons, if_neg, ih hfront, Option.map_some, List.length_cons]
      rintro ⟨rfl, hhead⟩
      cases front with
      | nil => exact hne (Option.some.inj hhead)
      | cons d front => exact hpair ⟨rfl, hhead⟩

/-- What stands behind a pair is left when the pair is dropped with the text in front. -/
theorem drop_append_pair (front behind : Text) :
    (front ++ a :: b :: behind).drop (front.length + 2) = behind := by
  rw [List.drop_append]
  simp

/-- What stands behind a block comment is a part of the text. -/
theorem infix_of_block (body behind : Text) :
    behind <:+: .char '/' :: .char '*' :: (body ++ .char '*' :: .char '/' :: behind) :=
  ⟨.char '/' :: .char '*' :: (body ++ [.char '*', .char '/']), [], by simp⟩

end Text

namespace Template

/-! ## Block comments -/

/-- No block comment starts with `c` in front of `s`. -/
def OpensNone (c : CodePoint) (s : Text) : Prop :=
  c = '/' → s.head? = some (.char '*') → Text.includes s.tail "*/" = false

/-- Only a slash opens a block comment. -/
theorem opensNone_of_ne {c : CodePoint} (h : c ≠ '/') (s : Text) : OpensNone c s :=
  fun hc => absurd hc h

/-- A text starts with a block comment or with a character that opens none. -/
theorem exists_block_or_opensNone (c : CodePoint) (s : Text) :
    (∃ body behind, c = '/' ∧ s = .char '*' :: (body ++ .char '*' :: .char '/' :: behind) ∧
      Text.includes body "*/" = false) ∨ OpensNone c s := by
  by_cases hopen : c = '/' ∧ s.head? = some (.char '*')
  · obtain ⟨rfl, hhead⟩ := hopen
    obtain ⟨t, rfl⟩ := List.head?_eq_some_iff.1 hhead
    by_cases hclosed : Text.includes t "*/" = false
    · exact .inr fun _ _ => hclosed
    · obtain ⟨body, behind, rfl, hbody⟩ := Text.exists_first hclosed
      exact .inl ⟨body, behind, rfl, rfl, hbody⟩
  · exact .inr fun hc hhead => absurd ⟨hc, hhead⟩ hopen

/-- An induction on a text, one block comment or character at a time. -/
theorem byBlocks {motive : Text → Prop} (nil : motive [])
    (block : ∀ body behind, Text.includes body "*/" = false → motive behind →
      motive (.char '/' :: .char '*' :: (body ++ .char '*' :: .char '/' :: behind)))
    (plain : ∀ c s, OpensNone c s → motive s → motive (c :: s)) (s : Text) : motive s :=
  match s with
  | [] => nil
  | c :: s => by
      rcases exists_block_or_opensNone c s with ⟨body, behind, rfl, rfl, hbody⟩ | hnone
      · exact block body behind hbody (byBlocks nil block plain behind)
      · exact plain c s hnone (byBlocks nil block plain s)
termination_by s.length
decreasing_by
  · subst_vars; simp; omega
  · simp

/-- A block comment is cut to a space. -/
theorem withoutBlockComments_block {body : Text} (h : Text.includes body "*/" = false)
    (behind : Text) :
    withoutBlockComments (.char '/' :: .char '*' :: (body ++ .char '*' :: .char '/' :: behind)) =
      .char ' ' :: withoutBlockComments behind := by
  have hfound : Text.find? "*/" (body ++ .char '*' :: .char '/' :: behind) = some body.length :=
    Text.find?_append (by decide) h behind
  rw [withoutBlockComments, hfound]
  exact congrArg (.char ' ' :: withoutBlockComments ·) (Text.drop_append_pair body behind)

/-- Where nothing closes a block comment, none is cut. -/
theorem withoutBlockComments_of_unclosed {s : Text} (h : Text.includes s "*/" = false) :
    withoutBlockComments s = s := by
  fun_induction withoutBlockComments s with
  | case1 => rfl
  | case2 rest n hfound ih =>
      have hrest := Text.includes_eq_false_of_infix h
        ((List.suffix_cons (.char '*') rest).trans (List.suffix_cons (.char '/') _)).isInfix
      rw [Text.includes, hfound] at hrest
      cases hrest
  | case3 rest hfound => rfl
  | case4 c rest hnot ih =>
      rw [ih (Text.includes_eq_false_of_infix h (List.infix_cons List.infix_rfl))]

/-- A character that opens no block comment is kept. -/
theorem withoutBlockComments_cons {c : CodePoint} {s : Text} (h : OpensNone c s) :
    withoutBlockComments (c :: s) = c :: withoutBlockComments s := by
  by_cases hopen : c = '/' ∧ s.head? = some (.char '*')
  · obtain ⟨rfl, hhead⟩ := hopen
    have hunclosed := h rfl hhead
    obtain ⟨t, rfl⟩ := List.head?_eq_some_iff.1 hhead
    rw [List.tail_cons] at hunclosed
    rw [withoutBlockComments, Text.find?_eq_none.2 hunclosed, withoutBlockComments,
      withoutBlockComments_of_unclosed hunclosed]
    intro _ hslash
    cases hslash
  · rw [withoutBlockComments]
    rintro t rfl rfl
    exact hopen ⟨rfl, rfl⟩

/-! ## Pieces -/

/-- A comment, or a character outside of comments. -/
inductive Piece where
  | plain (c : CodePoint)
  | line (body : Text)
  | block (body : Text)
deriving DecidableEq, Repr

namespace Piece

/-- The piece as it stands in the text. -/
def text : Piece → Text
  | .plain c => [c]
  | .line body => .char '/' :: .char '/' :: body
  | .block body => .char '/' :: .char '*' :: (body ++ [.char '*', .char '/'])

/-- What is left of the piece: a block comment leaves a space. -/
def kept : Piece → Text
  | .plain c => [c]
  | .line _ => []
  | .block _ => [.char ' ']

end Piece

/-- The pieces of a text, from the left. -/
def pieces (s : Text) : List Piece :=
  match s with
  | [] => []
  | '/' :: '/' :: s =>
      .line (s.takeWhile (· != .char '\n')) :: pieces (s.dropWhile (· != .char '\n'))
  | '/' :: '*' :: s =>
      match Text.find? "*/" s with
      | some n => .block (s.take n) :: pieces (s.drop (n + 2))
      | none => .plain '/' :: pieces (.char '*' :: s)
  | c :: s => .plain c :: pieces s
termination_by s.length
decreasing_by
  · have := (List.dropWhile_suffix (l := s) (· != .char '\n')).length_le
    simp only [List.length_cons]
    omega
  · simp only [List.length_drop, List.length_cons]
    omega
  · simp
  · simp

/-- The text of a list of pieces. -/
def written (parts : List Piece) : Text :=
  parts.flatMap Piece.text

/-- The text without its comments. -/
def uncommented (s : Text) : Text :=
  (pieces s).flatMap Piece.kept

/-- No comment starts with `c` in front of `s`. -/
structure IsPlain (c : CodePoint) (s : Text) : Prop where
  line : c = '/' → s.head? ≠ some (.char '/')
  block : OpensNone c s

/-- A line comment in front is the first piece. -/
theorem pieces_line {body behind : Text} (hbody : .char '\n' ∉ body)
    (hbehind : Text.Stops (· != .char '\n') behind) :
    pieces (.char '/' :: .char '/' :: (body ++ behind)) = .line body :: pieces behind := by
  have hrun : ∀ c ∈ body, (c != '\n') = true := fun c hc => bne_iff_ne.2 fun heq => hbody (heq ▸ hc)
  rw [pieces, Text.takeWhile_append hrun hbehind, Text.dropWhile_append hrun hbehind]

/-- A block comment in front is the first piece. -/
theorem pieces_block {body : Text} (h : Text.includes body "*/" = false) (behind : Text) :
    pieces (.char '/' :: .char '*' :: (body ++ .char '*' :: .char '/' :: behind)) =
      .block body :: pieces behind := by
  have hfound : Text.find? "*/" (body ++ .char '*' :: .char '/' :: behind) = some body.length :=
    Text.find?_append (by decide) h behind
  rw [pieces, hfound]
  dsimp only
  rw [Text.drop_append_pair, List.take_left]

/-- A character that opens nothing is a piece of its own. -/
theorem pieces_plain {c : CodePoint} {s : Text} (h : IsPlain c s) :
    pieces (c :: s) = .plain c :: pieces s := by
  by_cases hopen : c = '/' ∧ s.head? = some (.char '*')
  · obtain ⟨rfl, hhead⟩ := hopen
    have hunclosed := h.block rfl hhead
    obtain ⟨t, rfl⟩ := List.head?_eq_some_iff.1 hhead
    rw [List.tail_cons] at hunclosed
    rw [pieces, Text.find?_eq_none.2 hunclosed]
  · rw [pieces]
    · rintro t rfl rfl
      exact h.line rfl rfl
    · rintro t rfl rfl
      exact hopen ⟨rfl, rfl⟩

/-- An induction on a text, one comment or character at a time. -/
theorem byPieces {motive : Text → Prop} (nil : motive [])
    (line : ∀ body behind, .char '\n' ∉ body → Text.Stops (· != .char '\n') behind → motive behind →
      motive (.char '/' :: .char '/' :: (body ++ behind)))
    (block : ∀ body behind, Text.includes body "*/" = false → motive behind →
      motive (.char '/' :: .char '*' :: (body ++ .char '*' :: .char '/' :: behind)))
    (plain : ∀ c s, IsPlain c s → motive s → motive (c :: s)) (s : Text) : motive s :=
  match s with
  | [] => nil
  | c :: s => by
      rcases exists_block_or_opensNone c s with ⟨body, behind, rfl, rfl, hbody⟩ | hnone
      · exact block body behind hbody (byPieces nil line block plain behind)
      · by_cases hline : c = '/' ∧ s.head? = some (.char '/')
        · obtain ⟨rfl, hhead⟩ := hline
          obtain ⟨t, rfl⟩ := List.head?_eq_some_iff.1 hhead
          obtain ⟨hsplit, hrun, hstops⟩ := Text.exists_run (· != .char '\n') t
          rw [hsplit]
          refine line _ _ (fun hfeed => ?_) hstops (byPieces nil line block plain _)
          exact bne_iff_ne.1 (hrun _ hfeed) rfl
        · exact plain c s ⟨fun hc hhead => hline ⟨hc, hhead⟩, hnone⟩
            (byPieces nil line block plain s)
termination_by s.length
decreasing_by
  · subst_vars
    simp
    omega
  · have := (List.dropWhile_suffix (l := t) (· != .char '\n')).length_le
    subst_vars
    simp only [List.length_cons]
    omega
  · simp

/-- The pieces make up the text. -/
theorem written_pieces (s : Text) : written (pieces s) = s := by
  induction s using byPieces with
  | nil => rw [pieces]; rfl
  | line body behind hbody hbehind ih =>
      rw [pieces_line hbody hbehind, written, List.flatMap_cons]
      exact congrArg (.char '/' :: .char '/' :: body ++ ·) ih
  | block body behind hbody ih =>
      rw [pieces_block hbody, written, List.flatMap_cons]
      refine
        (congrArg (.char '/' :: .char '*' :: (body ++ [.char '*', .char '/']) ++ ·) ih).trans ?_
      simp
  | plain c s hplain ih =>
      rw [pieces_plain hplain, written, List.flatMap_cons]
      exact congrArg (c :: ·) ih

/-! ## The text without its comments -/

theorem uncommented_nil : uncommented [] = [] := by
  rw [uncommented, pieces]
  rfl

/-- A line comment leaves nothing behind. -/
theorem uncommented_line {body behind : Text} (hbody : .char '\n' ∉ body)
    (hbehind : Text.Stops (· != .char '\n') behind) :
    uncommented (.char '/' :: .char '/' :: (body ++ behind)) = uncommented behind := by
  rw [uncommented, pieces_line hbody hbehind]
  rfl

/-- A block comment leaves a space behind. -/
theorem uncommented_block {body : Text} (h : Text.includes body "*/" = false) (behind : Text) :
    uncommented (.char '/' :: .char '*' :: (body ++ .char '*' :: .char '/' :: behind)) =
      .char ' ' :: uncommented behind := by
  rw [uncommented, pieces_block h]
  rfl

/-- A character that opens nothing stays. -/
theorem uncommented_plain {c : CodePoint} {s : Text} (h : IsPlain c s) :
    uncommented (c :: s) = c :: uncommented s := by
  rw [uncommented, pieces_plain h]
  rfl

/-- Only a slash opens a comment. -/
theorem isPlain_of_ne {c : CodePoint} (h : c ≠ '/') (s : Text) : IsPlain c s :=
  ⟨fun hc => absurd hc h, opensNone_of_ne h s⟩

/-- The rest of a text that is cut at a line end is over or goes on with the line end. -/
theorem eq_nil_or_feed {s : Text} (h : Text.Stops (· != .char '\n') s) :
    s = [] ∨ ∃ t, s = .char '\n' :: t := by
  cases s with
  | nil => exact .inl rfl
  | cons c t =>
      have hc : c = '\n' := by simpa using Text.stops_cons.1 h
      exact .inr ⟨t, congrArg (· :: t) hc⟩

/-- A comment leaves nothing that could be taken for the start or the end of one. -/
theorem head?_uncommented {c : CodePoint} (hspace : c ≠ ' ') (hfeed : c ≠ '\n') {s : Text}
    (h : (uncommented s).head? = some c) : s.head? = some c := by
  induction s using byPieces with
  | nil => rw [uncommented_nil] at h; cases h
  | line body behind hbody hbehind ih =>
      rw [uncommented_line hbody hbehind] at h
      rcases eq_nil_or_feed hbehind with rfl | ⟨t, rfl⟩
      · rw [uncommented_nil] at h
        cases h
      · exact absurd (Option.some.inj (ih h)) hfeed.symm
  | block body behind hbody ih =>
      rw [uncommented_block hbody] at h
      exact absurd (Option.some.inj h) hspace.symm
  | plain d s hplain ih =>
      rw [uncommented_plain hplain] at h
      exact h

/-- A text without its comments has no two slashes in a row. -/
theorem includes_uncommented_slashes (s : Text) :
    Text.includes (uncommented s) "//" = false := by
  have hslash : CodePoint.char ' ' ≠ '/' := by decide
  induction s using byPieces with
  | nil => rw [uncommented_nil]; rfl
  | line body behind hbody hbehind ih => rwa [uncommented_line hbody hbehind]
  | block body behind hbody ih =>
      rw [uncommented_block hbody]
      exact Text.includes_cons_eq_false.2 ⟨fun h => hslash h.1, ih⟩
  | plain c s hplain ih =>
      rw [uncommented_plain hplain]
      refine Text.includes_cons_eq_false.2 ⟨?_, ih⟩
      rintro ⟨hc, hhead⟩
      exact hplain.line hc (head?_uncommented (by decide) (by decide) hhead)

/-- Nothing closes a block comment after the comments are gone, if nothing did before. -/
theorem includes_uncommented_closing {s : Text} (h : Text.includes s "*/" = false) :
    Text.includes (uncommented s) "*/" = false := by
  have hstar : CodePoint.char ' ' ≠ '*' := by decide
  induction s using byPieces with
  | nil => rwa [uncommented_nil]
  | line body behind hbody hbehind ih =>
      rw [uncommented_line hbody hbehind]
      refine ih (Text.includes_eq_false_of_infix h ?_)
      exact (List.suffix_append (.char '/' :: .char '/' :: body) behind).isInfix
  | block body behind hbody ih =>
      rw [uncommented_block hbody]
      refine Text.includes_cons_eq_false.2 ⟨fun h => hstar h.1, ih ?_⟩
      exact Text.includes_eq_false_of_infix h (Text.infix_of_block body behind)
  | plain c s hplain ih =>
      obtain ⟨hpair, hs⟩ := Text.includes_cons_eq_false.1 h
      rw [uncommented_plain hplain]
      refine Text.includes_cons_eq_false.2 ⟨?_, ih hs⟩
      rintro ⟨hc, hhead⟩
      exact hpair ⟨hc, head?_uncommented (by decide) (by decide) hhead⟩

/-- A text without its comments has none. -/
theorem withoutComments_uncommented (s : Text) :
    withoutComments (uncommented s) = uncommented s := by
  suffices hblocks : withoutBlockComments (uncommented s) = uncommented s by
    rw [withoutComments, hblocks, withoutLineComments_eq_self (includes_uncommented_slashes s)]
  induction s using byPieces with
  | nil => rw [uncommented_nil, withoutBlockComments]
  | line body behind hbody hbehind ih => rwa [uncommented_line hbody hbehind]
  | block body behind hbody ih =>
      have hspace : CodePoint.char ' ' ≠ '/' := by decide
      rw [uncommented_block hbody, withoutBlockComments_cons (opensNone_of_ne hspace _), ih]
  | plain c s hplain ih =>
      have hnone : OpensNone c (uncommented s) := by
        intro hc hhead
        have hstar := head?_uncommented (by decide) (by decide) hhead
        have hunclosed := hplain.block hc hstar
        obtain ⟨t, rfl⟩ := List.head?_eq_some_iff.1 hstar
        rw [uncommented_plain (isPlain_of_ne (by decide) t)]
        exact includes_uncommented_closing hunclosed
      rw [uncommented_plain hplain, withoutBlockComments_cons hnone, ih]

end Template
end VerilogLayout

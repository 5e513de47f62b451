import VerilogLayout.Proofs.Header.Piece

/-!
# Comments within comments

`withoutComments` takes out the block comments before it looks for line comments, so what opens in
a line comment counts if something closes it. `Untangled` says that no line comment of the text does
harm in this way. `withoutComments_pieces` says that an untangled text loses exactly the comments
that are pieces of it, and that no other text does as long as the signs of its block comments are
`Apart`. The converse compares line feeds: a comment that goes on behind its line takes the line
feed with it, and nothing gives it back. With signs that overlap a second mistake can make up for
the first one, as in `// /*`, `/*/`, ` //*/` on three lines.
-/

namespace VerilogLayout

namespace Template

open Text (Stops)

/-- The block comments that open in a line comment end in it: none starts with the second slash, and
none that is left open is closed behind the line. -/
structure Harmless (body behind : Text) : Prop where
  first : body.head? ≠ some (.char '*') ∨ Text.includes (body.tail ++ behind) "*/" = false
  last : Text.includes (withoutBlockComments body) "/*" = false ∨ Text.includes behind "*/" = false

/-- All line comments of a text are harmless. -/
def Untangled (s : Text) : Prop :=
  ∀ body behind, .line body :: behind <:+ pieces s → Harmless body (written behind)

/-- No two signs of block comments share a character. -/
structure Apart (s : Text) : Prop where
  opening : ¬ [.char '/', .char '*', .char '/'] <:+: s
  closing : ¬ [.char '*', .char '/', .char '*'] <:+: s

/-! ## Pieces of untangled texts -/

theorem untangled_nil : Untangled [] := by
  intro body behind h
  rw [pieces, List.suffix_nil] at h
  cases h

/-- A line comment in front keeps a text untangled if it is harmless itself. -/
theorem untangled_line {body behind : Text} (hbody : .char '\n' ∉ body)
    (hbehind : Stops (· != .char '\n') behind) :
    Untangled (.char '/' :: .char '/' :: (body ++ behind)) ↔
      Harmless body behind ∧ Untangled behind := by
  rw [Untangled, pieces_line hbody hbehind]
  constructor
  · intro h
    refine ⟨?_, fun _ _ hrest => h _ _ (List.suffix_cons_iff.2 (.inr hrest))⟩
    have hfirst := h body (pieces behind) List.suffix_rfl
    rwa [written_pieces] at hfirst
  · rintro ⟨hfirst, hrest⟩ other rest h
    rcases List.suffix_cons_iff.1 h with heq | h
    · obtain ⟨hpiece, rfl⟩ := List.cons.inj heq
      obtain rfl := Piece.line.inj hpiece
      rwa [written_pieces]
    · exact hrest _ _ h

/-- A block comment in front does not matter. -/
theorem untangled_block {body : Text} (hbody : Text.includes body "*/" = false) {behind : Text} :
    Untangled (.char '/' :: .char '*' :: (body ++ .char '*' :: .char '/' :: behind)) ↔
      Untangled behind := by
  rw [Untangled, pieces_block hbody]
  refine forall_congr' fun _ => forall_congr' fun _ => imp_congr_left ?_
  rw [List.suffix_cons_iff]
  exact or_iff_right nofun

/-- A character in front that opens nothing does not matter. -/
theorem untangled_plain {c : CodePoint} {s : Text} (h : IsPlain c s) :
    Untangled (c :: s) ↔ Untangled s := by
  rw [Untangled, pieces_plain h]
  refine forall_congr' fun _ => forall_congr' fun _ => imp_congr_left ?_
  rw [List.suffix_cons_iff]
  exact or_iff_right nofun

/-! ## Both passes over one piece -/

/-- Only two slashes start a line comment. -/
theorem withoutLineComments_cons {c : CodePoint} {s : Text}
    (h : ¬ (c = '/' ∧ s.head? = some (.char '/'))) :
    withoutLineComments (c :: s) = c :: withoutLineComments s := by
  by_cases hfeed : c = '\n'
  · subst hfeed
    rfl
  · rw [withoutLineComments, withoutLineComments.go, if_neg Bool.false_ne_true, if_neg h]
    exact hfeed

/-- A line comment is cut up to its line feed. -/
theorem withoutLineComments_slashes {body behind : Text} (hbody : .char '\n' ∉ body)
    (hbehind : Stops (· != .char '\n') behind) :
    withoutLineComments (.char '/' :: .char '/' :: (body ++ behind)) =
      withoutLineComments behind := by
  have hgo : withoutLineComments.go true (body ++ behind) = withoutLineComments behind := by
    induction body with
    | nil =>
        rcases eq_nil_or_feed hbehind with rfl | ⟨t, rfl⟩
        · rfl
        · rfl
    | cons c body ih =>
        obtain ⟨hc, hbody⟩ := not_or.1 (mt List.mem_cons.2 hbody)
        rw [List.cons_append, withoutLineComments.go, if_pos rfl, ih hbody]
        exact Ne.symm hc
  exact hgo

/-- Only a space can be new in front. -/
theorem head?_withoutBlockComments {c : CodePoint} (hspace : c ≠ ' ') {s : Text}
    (h : (withoutBlockComments s).head? = some c) : s.head? = some c := by
  rw [withoutBlockComments.eq_def] at h
  split at h
  · exact h
  · next rest =>
      split at h
      · exact absurd (Option.some.inj h).symm hspace
      · exact h
  · exact h

theorem mem_of_mem_withoutBlockComments {c : CodePoint} (hspace : c ≠ ' ') {s : Text}
    (h : c ∈ withoutBlockComments s) : c ∈ s := by
  induction s using byBlocks with
  | nil => rwa [withoutBlockComments] at h
  | block body behind hbody ih =>
      rw [withoutBlockComments_block hbody] at h
      have hbehind := ih ((List.mem_cons.1 h).resolve_left hspace)
      simp [hbehind]
  | plain d s hnone ih =>
      rw [withoutBlockComments_cons hnone] at h
      exact List.mem_cons.2 ((List.mem_cons.1 h).imp_right ih)

/-- A block comment is cut to a space before anything else is read. -/
theorem withoutComments_block {body : Text} (h : Text.includes body "*/" = false)
    (behind : Text) :
    withoutComments (.char '/' :: .char '*' :: (body ++ .char '*' :: .char '/' :: behind)) =
      .char ' ' :: withoutComments behind := by
  have hspace : CodePoint.char ' ' ≠ '/' := by decide
  rw [withoutComments, withoutBlockComments_block h,
    withoutLineComments_cons fun hboth => hspace hboth.1]
  rfl

/-- A character that opens nothing is kept. -/
theorem withoutComments_plain {c : CodePoint} {s : Text} (h : IsPlain c s) :
    withoutComments (c :: s) = c :: withoutComments s := by
  rw [withoutComments, withoutBlockComments_cons h.block, withoutLineComments_cons]
  · rfl
  · rintro ⟨hc, hhead⟩
    exact h.line hc (head?_withoutBlockComments (by decide) hhead)

/-! ## A harmless comment is cut as a line -/

/-- Nothing opens in front of a text if nothing opens before the line ends, or nothing is closed
behind it. -/
theorem OpensNone.append {c : CodePoint} {s behind : Text} (h : OpensNone c s)
    (hbehind : Stops (· != .char '\n') behind)
    (hclosed : (c = '/' → s.head? ≠ some (.char '*')) ∨ Text.includes behind "*/" = false) :
    OpensNone c (s ++ behind) := by
  intro hc hhead
  have hfeed : ∀ d, d ≠ '\n' → behind.head? ≠ some d := by
    intro d hd hfirst
    exact hd (by simpa using hbehind d hfirst)
  cases s with
  | nil => exact absurd hhead (hfeed '*' (by decide))
  | cons d t =>
      have hnone := hclosed.resolve_left fun hopen => hopen hc hhead
      have happend := Text.includes_append (s := t) (t := behind) (a := '*') (b := '/')
        (.inr (hfeed '/' (by decide)))
      exact happend.trans (Bool.or_eq_false_iff.2 ⟨h hc hhead, hnone⟩)

/-- The block comments of a line and of the text behind it are taken out on their own if nothing
that is left open on the line is closed behind it. -/
theorem withoutBlockComments_append {body behind : Text} (hbehind : Stops (· != .char '\n') behind)
    (h : Text.includes (withoutBlockComments body) "/*" = false ∨
      Text.includes behind "*/" = false) :
    withoutBlockComments (body ++ behind) =
      withoutBlockComments body ++ withoutBlockComments behind := by
  induction body using byBlocks with
  | nil => rw [withoutBlockComments, List.nil_append, List.nil_append]
  | block inner s hinner ih =>
      rw [withoutBlockComments_block hinner] at h
      have hsplit : .char '/' :: .char '*' :: (inner ++ .char '*' :: .char '/' :: s) ++ behind =
          .char '/' :: .char '*' :: (inner ++ .char '*' :: .char '/' :: (s ++ behind)) := by simp
      rw [hsplit, withoutBlockComments_block hinner, withoutBlockComments_block hinner,
        ih (h.imp_left fun hopen => (Text.includes_cons_eq_false.1 hopen).2)]
      rfl
  | plain c s hnone ih =>
      -- An opening that the line does not close is left on it, so `h` speaks of it.
      rw [withoutBlockComments_cons hnone] at h
      have hopen : (c = '/' → s.head? ≠ some (.char '*')) ∨ Text.includes behind "*/" = false := by
        refine h.imp_left fun hopen hc hhead => (Text.includes_cons_eq_false.1 hopen).1 ⟨hc, ?_⟩
        obtain ⟨t, rfl⟩ := List.head?_eq_some_iff.1 hhead
        have hstar : CodePoint.char '*' ≠ '/' := by decide
        rw [withoutBlockComments_cons (opensNone_of_ne hstar t)]
        rfl
      rw [withoutBlockComments_cons hnone, List.cons_append,
        withoutBlockComments_cons (hnone.append hbehind hopen),
        ih (h.imp_left fun hopen => (Text.includes_cons_eq_false.1 hopen).2)]
      rfl

/-- A line comment starts with a slash that opens no block comment. -/
theorem opensNone_slash (s : Text) : OpensNone '/' (.char '/' :: s) := by
  have hslash : CodePoint.char '/' ≠ '*' := by decide
  exact fun _ hhead => absurd (Option.some.inj hhead) hslash

/-- Cutting block comments keeps a line feed that comes first. -/
theorem stops_withoutBlockComments {behind : Text} (h : Stops (· != .char '\n') behind) :
    Stops (· != .char '\n') (withoutBlockComments behind) := by
  have hfeed : CodePoint.char '\n' ≠ '/' := by decide
  rcases eq_nil_or_feed h with rfl | ⟨t, rfl⟩
  · rwa [withoutBlockComments]
  · rw [withoutBlockComments_cons (opensNone_of_ne hfeed t)]
    exact Text.stops_cons.2 rfl

/-- A harmless line comment is cut up to its line feed. -/
theorem withoutComments_line {body behind : Text} (hbody : .char '\n' ∉ body)
    (hbehind : Stops (· != .char '\n') behind) (h : Harmless body behind) :
    withoutComments (.char '/' :: .char '/' :: (body ++ behind)) = withoutComments behind := by
  have hsecond : OpensNone '/' (body ++ behind) := by
    intro _ hhead
    cases body with
    | nil =>
        rcases eq_nil_or_feed hbehind with rfl | ⟨t, rfl⟩
        · cases hhead
        · cases hhead
    | cons c body => exact h.first.resolve_left fun hne => hne hhead
  have hfeed : .char '\n' ∉ withoutBlockComments body := fun hmem =>
    hbody (mem_of_mem_withoutBlockComments (by decide) hmem)
  rw [withoutComments, withoutBlockComments_cons (opensNone_slash _),
    withoutBlockComments_cons hsecond, withoutBlockComments_append hbehind h.last,
    withoutLineComments_slashes hfeed (stops_withoutBlockComments hbehind)]
  rfl

/-- An untangled text loses exactly the comments that are pieces of it. -/
theorem withoutComments_of_untangled {s : Text} (h : Untangled s) :
    withoutComments s = uncommented s := by
  induction s using byPieces with
  | nil => rw [uncommented_nil, withoutComments, withoutBlockComments]; rfl
  | line body behind hbody hbehind ih =>
      obtain ⟨hharmless, hrest⟩ := (untangled_line hbody hbehind).1 h
      rw [withoutComments_line hbody hbehind hharmless, ih hrest, uncommented_line hbody hbehind]
  | block body behind hbody ih =>
      rw [withoutComments_block hbody, ih ((untangled_block hbody).1 h), uncommented_block hbody]
  | plain c s hplain ih =>
      rw [withoutComments_plain hplain, ih ((untangled_plain hplain).1 h),
        uncommented_plain hplain]

/-! ## Line feeds -/

/-- Cutting line comments keeps all line feeds. -/
theorem count_withoutComments (s : Text) :
    (withoutComments s).count (.char '\n') = (withoutBlockComments s).count (.char '\n') := by
  suffices hgo : ∀ inComment t,
      (withoutLineComments.go inComment t).count (.char '\n') = t.count (.char '\n') from
    hgo false _
  intro inComment t
  fun_induction withoutLineComments.go inComment t with
  | case1 => rfl
  | case2 inComment t ih => rw [List.count_cons_self, List.count_cons_self, ih]
  | case3 c t hc ih => rw [ih, List.count_cons_of_ne hc]
  | case4 inComment c t hc _ hpair ih => rw [ih, List.count_cons_of_ne hc]
  | case5 inComment c t hc _ hpair ih => rw [List.count_cons_of_ne hc, List.count_cons_of_ne hc, ih]

/-- A part of a text with signs apart has its signs apart. -/
theorem Apart.of_infix {s t : Text} (h : Apart s) (hts : t <:+: s) : Apart t :=
  ⟨fun hopening => h.opening (hopening.trans hts), fun hclosing => h.closing (hclosing.trans hts)⟩

/-- The front of a text with signs apart has its signs apart. -/
theorem Apart.of_append {s t : Text} (h : Apart (s ++ t)) : Apart t :=
  h.of_infix (List.suffix_append s t).isInfix

/-- What stands behind the end of a block comment has no more line feeds than a text that goes on up
to there. -/
theorem count_behind_le {front behind : Text} (hfront : Text.includes front "*/" = false)
    (h : Apart (front ++ .char '*' :: .char '/' :: behind)) :
    (withoutBlockComments behind).count (.char '\n') ≤
      (withoutBlockComments (front ++ .char '*' :: .char '/' :: behind)).count (.char '\n') := by
  induction front with
  | nil =>
      have hstar : CodePoint.char '*' ≠ '/' := by decide
      have hnone : OpensNone '/' behind := by
        rintro - hhead
        obtain ⟨t, rfl⟩ := List.head?_eq_some_iff.1 hhead
        exact absurd ⟨[], t, rfl⟩ h.closing
      rw [List.nil_append, withoutBlockComments_cons (opensNone_of_ne hstar _),
        withoutBlockComments_cons hnone]
      simp
  | cons c front ih =>
      by_cases hopen : c = '/' ∧ front.head? = some (.char '*')
      -- A comment that opens here has the same end.
      · obtain ⟨rfl, hhead⟩ := hopen
        obtain ⟨front, rfl⟩ := List.head?_eq_some_iff.1 hhead
        have hbody := Text.includes_eq_false_of_infix hfront
          ((List.suffix_cons (.char '*') front).trans (List.suffix_cons (.char '/') _)).isInfix
        have hblock := withoutBlockComments_block hbody behind
        rw [List.cons_append, List.cons_append, hblock]
        exact List.count_le_count_cons
      · have hnone : OpensNone c (front ++ .char '*' :: .char '/' :: behind) := by
          rintro rfl hhead
          cases front with
          | nil => exact absurd ⟨[], behind, rfl⟩ h.opening
          | cons d front => exact absurd ⟨rfl, hhead⟩ hopen
        rw [List.cons_append, withoutBlockComments_cons hnone]
        refine (ih ?_ ?_).trans List.count_le_count_cons
        · exact Text.includes_eq_false_of_infix hfront (List.suffix_cons c front).isInfix
        · exact h.of_infix (List.suffix_cons c _).isInfix

/-- Characters on the line in front of a text can only take line feeds out of it. -/
theorem count_append_le {line s : Text} (hline : .char '\n' ∉ line) (h : Apart (line ++ s)) :
    (withoutBlockComments (line ++ s)).count (.char '\n') ≤
      (withoutBlockComments s).count (.char '\n') := by
  induction line with
  | nil => exact le_rfl
  | cons c line ih =>
      obtain ⟨hc, hline⟩ := not_or.1 (mt List.mem_cons.2 hline)
      have hmore : Apart (line ++ s) := h.of_infix (List.suffix_cons c _).isInfix
      refine le_trans ?_ (ih hline hmore)
      rw [List.cons_append]
      rcases exists_block_or_opensNone c (line ++ s) with ⟨body, behind, rfl, heq, hbody⟩ | hnone
      · have hstar : CodePoint.char '*' ≠ '/' := by decide
        rw [heq] at hmore ⊢
        rw [withoutBlockComments_block hbody, withoutBlockComments_cons (opensNone_of_ne hstar _),
          List.count_cons_of_ne (by decide), List.count_cons_of_ne (by decide)]
        exact count_behind_le hbody (hmore.of_infix (List.suffix_cons _ _).isInfix)
      · rw [withoutBlockComments_cons hnone, List.count_cons_of_ne (Ne.symm hc)]

/-- Cutting block comments first leaves no more line feeds than cutting all comments in turn. -/
theorem count_le_uncommented {s : Text} (h : Apart s) :
    (withoutBlockComments s).count (.char '\n') ≤ (uncommented s).count (.char '\n') := by
  induction s using byPieces with
  | nil => rw [uncommented_nil, withoutBlockComments]
  | line body behind hbody hbehind ih =>
      have hline : .char '\n' ∉ .char '/' :: .char '/' :: body := by simp [hbody]
      rw [uncommented_line hbody hbehind]
      exact (count_append_le hline h).trans
        (ih (Apart.of_append (s := .char '/' :: .char '/' :: body) h))
  | block body behind hbody ih =>
      have hbehind : Apart behind := h.of_infix (Text.infix_of_block body behind)
      rw [uncommented_block hbody, withoutBlockComments_block hbody,
        List.count_cons_of_ne (by decide), List.count_cons_of_ne (by decide)]
      exact ih hbehind
  | plain c s hplain ih =>
      rw [uncommented_plain hplain, withoutBlockComments_cons hplain.block, List.count_cons,
        List.count_cons]
      exact Nat.add_le_add_right (ih (h.of_infix (List.suffix_cons c s).isInfix)) _

/-- A block comment that is open at the end of a line takes the line feed out if it is closed. -/
theorem count_lt_of_unclosed {line t : Text} (hline : Text.includes line "*/" = false)
    (h : Apart t) (hclosed : Text.includes t "*/" ≠ false) :
    (withoutBlockComments (.char '/' :: .char '*' :: (line ++ .char '\n' :: t))).count
      (.char '\n') <
      (withoutBlockComments (.char '\n' :: t)).count (.char '\n') := by
  have hstar : CodePoint.char '\n' ≠ '*' := by decide
  have hslash : CodePoint.char '\n' ≠ '/' := by decide
  obtain ⟨front, behind, rfl, hfront⟩ := Text.exists_first (a := '*') (b := '/') hclosed
  have hbody : Text.includes (line ++ .char '\n' :: front) "*/" = false := by
    have happend :=
      Text.includes_append (a := '*') (b := '/') (s := line) (t := .char '\n' :: front)
      (.inr fun hhead => hslash (Option.some.inj hhead))
    refine happend.trans (Bool.or_eq_false_iff.2 ⟨hline, ?_⟩)
    exact Text.includes_cons_eq_false.2 ⟨fun hboth => hstar hboth.1, hfront⟩
  have hsplit : line ++ .char '\n' :: (front ++ .char '*' :: .char '/' :: behind) =
      (line ++ .char '\n' :: front) ++ .char '*' :: .char '/' :: behind := by simp
  rw [hsplit, withoutBlockComments_block hbody, List.count_cons_of_ne (by decide),
    withoutBlockComments_cons (opensNone_of_ne hslash _), List.count_cons_self]
  exact Nat.lt_succ_of_le (count_behind_le hfront h)

/-- So does a block comment that opens somewhere on the line. -/
theorem count_lt_of_open {body behind : Text} (hbody : .char '\n' ∉ body)
    (hbehind : Stops (· != .char '\n') behind) (h : Apart (body ++ behind))
    (hopen : Text.includes (withoutBlockComments body) "/*" ≠ false)
    (hclosed : Text.includes behind "*/" ≠ false) :
    (withoutBlockComments (body ++ behind)).count (.char '\n') <
      (withoutBlockComments behind).count (.char '\n') := by
  -- The comments that close within the body are passed by the induction; the one left open takes
  -- the line feed along.
  induction body using byBlocks with
  | nil => exact absurd (by rw [withoutBlockComments]; rfl) hopen
  | block inner line hinner ih =>
      have hspace : CodePoint.char ' ' ≠ '/' := by decide
      have hsplit : .char '/' :: .char '*' :: (inner ++ .char '*' :: .char '/' :: line) ++ behind =
          .char '/' :: .char '*' :: (inner ++ .char '*' :: .char '/' :: (line ++ behind)) := by simp
      have hline : .char '\n' ∉ line := fun hmem => hbody (by simp [hmem])
      rw [withoutBlockComments_block hinner] at hopen
      rw [hsplit] at h ⊢
      rw [withoutBlockComments_block hinner, List.count_cons_of_ne (by decide)]
      exact ih hline (h.of_infix (Text.infix_of_block inner _)) fun hnone =>
        hopen (Text.includes_cons_eq_false.2 ⟨fun hboth => hspace hboth.1, hnone⟩)
  | plain c line hnone ih =>
      obtain ⟨hc, hline⟩ := not_or.1 (mt List.mem_cons.2 hbody)
      by_cases hstart : c = '/' ∧ line.head? = some (.char '*')
      · obtain ⟨rfl, hhead⟩ := hstart
        have hinner := hnone rfl hhead
        obtain ⟨inner, rfl⟩ := List.head?_eq_some_iff.1 hhead
        obtain rfl | ⟨t, rfl⟩ := eq_nil_or_feed hbehind
        · exact absurd rfl hclosed
        · have hfeed : CodePoint.char '\n' ≠ '*' := by decide
          refine count_lt_of_unclosed hinner ?_ fun hnone => hclosed ?_
          · exact h.of_infix ⟨.char '/' :: .char '*' :: (inner ++ [.char '\n']), [], by simp⟩
          · exact Text.includes_cons_eq_false.2 ⟨fun hboth => hfeed hboth.1, hnone⟩
      · have hmore : Apart (line ++ behind) := h.of_infix (List.suffix_cons c _).isInfix
        rw [withoutBlockComments_cons hnone] at hopen
        have hbefore : (c = '/' → line.head? ≠ some (.char '*')) :=
          fun hc hhead => hstart ⟨hc, hhead⟩
        rw [List.cons_append, withoutBlockComments_cons (hnone.append hbehind (.inl hbefore)),
          List.count_cons_of_ne (Ne.symm hc)]
        refine ih hline hmore fun hnone => hopen (Text.includes_cons_eq_false.2 ⟨?_, hnone⟩)
        rintro ⟨hc, hhead⟩
        exact hbefore hc (head?_withoutBlockComments (by decide) hhead)

/-! ## Only untangled texts -/

/-- A block comment that starts with the second slash leaves the first one. -/
theorem head?_of_second_slash {body behind : Text} (hhead : body.head? = some (.char '*'))
    (hclosed : Text.includes (body.tail ++ behind) "*/" ≠ false) :
    (withoutComments (.char '/' :: .char '/' :: (body ++ behind))).head? = some (.char '/') := by
  have hspace : CodePoint.char ' ' ≠ '/' := by decide
  obtain ⟨inner, rfl⟩ := List.head?_eq_some_iff.1 hhead
  obtain ⟨front, rest, heq, hfront⟩ := Text.exists_first (a := '*') (b := '/') hclosed
  rw [List.tail_cons] at heq
  have hfirst : ¬ (CodePoint.char '/' = '/' ∧
      (.char ' ' :: withoutBlockComments rest).head? = some (.char '/')) :=
    fun hboth => hspace (Option.some.inj hboth.2)
  rw [List.cons_append, heq, withoutComments, withoutBlockComments_cons (opensNone_slash _),
    withoutBlockComments_block hfront, withoutLineComments_cons hfirst]
  rfl

/-- What is left behind a line comment starts with no slash. -/
theorem head?_uncommented_behind {behind : Text} (hbehind : Stops (· != .char '\n') behind) :
    (uncommented behind).head? ≠ some (.char '/') := by
  intro hhead
  have hfirst := hbehind '/' (head?_uncommented (by decide) (by decide) hhead)
  cases hfirst

/-- If a text with signs apart loses exactly its comments, it is untangled. -/
theorem untangled_of_withoutComments {s : Text} (hapart : Apart s)
    (h : withoutComments s = uncommented s) : Untangled s := by
  induction s using byPieces with
  | nil => exact untangled_nil
  | line body behind hbody hbehind ih =>
      have hbehindApart : Apart behind :=
        Apart.of_append (s := .char '/' :: .char '/' :: body) hapart
      rw [uncommented_line hbody hbehind] at h
      have hharmless : Harmless body behind := by
        constructor
        -- The first slash would stay where the text without comments has a line feed or ends.
        · by_contra hboth
          obtain ⟨hhead, hclosed⟩ := not_or.1 hboth
          have hslash := head?_of_second_slash (not_not.1 hhead) hclosed
          rw [h] at hslash
          exact head?_uncommented_behind hbehind hslash
        -- The line feed at the end of the line would be missing.
        · by_contra hboth
          obtain ⟨hopen, hclosed⟩ := not_or.1 hboth
          have hlt := count_lt_of_open hbody hbehind (Apart.of_append (s := ("//" : Text)) hapart)
            hopen hclosed
          have hslashes : .char '\n' ∉ ("//" : Text) := by decide
          have hle := count_append_le hslashes hapart
          have hcount := congrArg (List.count (.char '\n')) h
          rw [count_withoutComments] at hcount
          exact absurd (hcount.symm.trans_le hle |>.trans_lt hlt)
            (Nat.not_lt.2 (count_le_uncommented hbehindApart))
      rw [withoutComments_line hbody hbehind hharmless] at h
      exact (untangled_line hbody hbehind).2 ⟨hharmless, ih hbehindApart h⟩
  | block body behind hbody ih =>
      rw [withoutComments_block hbody, uncommented_block hbody] at h
      have hbehind := hapart.of_infix (Text.infix_of_block body behind)
      exact (untangled_block hbody).2 (ih hbehind (List.cons.inj h).2)
  | plain c s hplain ih =>
      rw [withoutComments_plain hplain, uncommented_plain hplain] at h
      have hrest := hapart.of_infix (List.suffix_cons c s).isInfix
      exact (untangled_plain hplain).2 (ih hrest (List.cons.inj h).2)

end Template

open Template

/-- The comments of a text that is untangled are those of its pieces, so its header is that of the
text without them. Only an untangled text is cleared so, if its signs of block comments are
apart. -/
theorem withoutComments_pieces (s : Text) :
    (Untangled s → withoutComments s = uncommented s ∧
      ModuleHeader.ofSource? s = ModuleHeader.ofSource? (uncommented s)) ∧
    (Apart s → withoutComments s = uncommented s → Untangled s) := by
  refine ⟨fun h => ?_, untangled_of_withoutComments⟩
  have hcleared := withoutComments_of_untangled h
  refine ⟨hcleared, ?_⟩
  rw [ModuleHeader.ofSource?, ModuleHeader.ofSource?, withoutComments_uncommented, hcleared]

/-- Comments of both kinds within each other, all of them harmless. -/
theorem withoutComments_pieces_header :
    let s : Text := "module m (a, // x /* y */ , z\n b /* // y\n */ , c); // /*"
    Apart s ∧ Untangled s ∧ withoutComments s = ("module m (a, \n b   , c); " : Text) ∧
      ModuleHeader.ofSource? s =
        .ok { name := "m", parameters := [], ports := ["a", "b", "c"] } := by
  intro s
  have hapart : Apart s := ⟨by decide +kernel, by decide +kernel⟩
  have hpieces : uncommented s = ("module m (a, \n b   , c); " : Text) := by decide +kernel
  have hcleared : withoutComments s = uncommented s := by decide +kernel
  have huntangled := (withoutComments_pieces s).2 hapart hcleared
  obtain ⟨hsame, hheader⟩ := (withoutComments_pieces s).1 huntangled
  refine ⟨hapart, huntangled, hsame.trans hpieces, hheader.trans ?_⟩
  rw [hpieces]
  decide +kernel

/-- A comment that opens in a line comment takes the second port with it. -/
example :
    ModuleHeader.ofSource? "module m (a, // x /* y\n b, // z */\n c); endmodule" =
      .ok { name := "m", parameters := [], ports := ["a", "c"] } := by
  decide +kernel

end VerilogLayout

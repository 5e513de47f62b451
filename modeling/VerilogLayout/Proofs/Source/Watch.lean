import VerilogLayout.Proofs.Source.Search
import VerilogLayout.Source.Align

/-!
# Reading a line past its gaps

What a line leaves open depends on few of its characters. A `Watch` reads a text from left to right
and keeps what counts: whether a comment has started, and which brackets are open behind the first
`#(`. A gap between two fields may change without a difference to it, as `along_gap` says, so an
aligned line leaves open what the line left open that it was made from.
-/

namespace VerilogLayout

/-- The last character, as far as the next one may pair with it. -/
inductive Mark where
  | plain
  | hash
  | slash
deriving DecidableEq, Repr

/-- The brackets that are open behind the first `#(`. -/
inductive Depth where
  /-- There is none. -/
  | outside
  | inside (n : Nat)
  /-- A bracket has been closed that was not open. -/
  | broken
deriving DecidableEq, Repr

/-- What counts of a text that has been read. -/
structure Watch where
  mark : Mark := .plain
  comment : Bool := false
  depth : Depth := .outside
deriving DecidableEq, Repr

/-- The mark that a character leaves. -/
def Mark.of (c : CodePoint) : Mark :=
  if c = '#' then .hash else if c = '/' then .slash else .plain

namespace Depth

/-- The brackets that are open behind one more character. -/
def next (mark : Mark) (c : CodePoint) : Depth → Depth
  | .outside => if mark = .hash ∧ c = '(' then .inside 1 else .outside
  | .inside n =>
      if Bracket.isOpening c then .inside (n + 1)
      else if Bracket.isClosing c then if n = 0 then .broken else .inside (n - 1)
      else .inside n
  | .broken => .broken

/-- The brackets behind the first `#(` do not close one another. -/
def isOpen : Depth → Bool
  | .outside => false
  | .inside n => n ≠ 0
  | .broken => true

end Depth

namespace Watch

/-- What counts behind one more character. -/
def next (watch : Watch) (c : CodePoint) : Watch where
  mark := .of c
  comment := watch.comment || (watch.mark = .slash && (c = '/' || c = '*'))
  depth := watch.depth.next watch.mark c

/-- What counts behind a text. -/
def along (watch : Watch) (s : Text) : Watch :=
  s.foldl next watch

@[simp]
theorem along_nil (watch : Watch) : watch.along [] = watch :=
  rfl

@[simp]
theorem along_cons (watch : Watch) (c : CodePoint) (s : Text) :
    watch.along (c :: s) = (watch.next c).along s :=
  rfl

/-- A watcher goes on from where the text in front has left it. -/
@[simp]
theorem along_append (watch : Watch) (s t : Text) :
    watch.along (s ++ t) = (watch.along s).along t :=
  List.foldl_append

/-! ## What a line leaves open -/

/-- A list that is broken stays broken. -/
theorem depth_along_broken (s : Text) (mark : Mark) (comment : Bool) :
    (along ⟨mark, comment, .broken⟩ s).depth = .broken := by
  induction s generalizing mark comment with
  | nil => rfl
  | cons c s ih => exact ih _ _

/-- A list stays open unless the text closes all of its brackets. -/
theorem isOpen_along_inside (s : Text) (mark : Mark) (comment : Bool) (n : Nat) :
    (along ⟨mark, comment, .inside n⟩ s).depth.isOpen = !Bracket.closes n s := by
  induction s generalizing mark comment n with
  | nil => simp [Depth.isOpen, Bracket.closes]
  | cons c s ih =>
      rw [along_cons, Bracket.closes]
      unfold next Depth.next
      dsimp only
      split
      · exact ih _ _ _
      · split
        · split
          · next h => simp [h, depth_along_broken, Depth.isOpen]
          · next h => simp [h, ih]
        · exact ih _ _ _

/-- A list of parameters is looked for at every place of a text. -/
theorem opensParameters_cons (c : CodePoint) (s : Text) :
    BlockState.opensParameters (c :: s) =
      if c = '#' ∧ s.head? = some (.char '(') then !Bracket.isBalanced (c :: s)
      else BlockState.opensParameters s := by
  have hpair : ("#(" : Text) = [.char '#', .char '('] := rfl
  rw [BlockState.opensParameters, BlockState.opensParameters, hpair, Text.find?_cons]
  by_cases h : c = '#' ∧ s.head? = some (.char '(')
  · rw [if_pos h, if_pos h]
    rfl
  · rw [if_neg h, if_neg h]
    cases Text.find? [.char '#', .char '('] s with
    | none => rfl
    | some n => rfl

/-- A watch tells whether a list of parameters stays open. -/
theorem isOpen_along (s : Text) (mark : Mark) (comment : Bool)
    (h : mark ≠ .hash ∨ s.head? ≠ some (.char '(')) :
    (along ⟨mark, comment, .outside⟩ s).depth.isOpen = BlockState.opensParameters s := by
  induction s generalizing mark comment with
  | nil => rfl
  | cons c s ih =>
      have hdepth : Depth.next mark c .outside = .outside := by
        refine if_neg fun hboth => ?_
        rcases h with hmark | hhead
        · exact hmark hboth.1
        · exact hhead (congrArg some hboth.2)
      rw [along_cons, opensParameters_cons]
      unfold next
      dsimp only
      rw [hdepth]
      split
      · next hboth =>
          obtain ⟨rfl, hhead⟩ := hboth
          obtain ⟨rest, rfl⟩ := List.head?_eq_some_iff.1 hhead
          exact isOpen_along_inside rest _ _ 1
      · next hnone =>
          refine ih _ _ ?_
          by_cases hc : c = '#'
          · exact .inr fun hhead => hnone ⟨hc, hhead⟩
          · left
            unfold Mark.of
            split
            · contradiction
            · split <;> decide

theorem of_eq_slash {c : CodePoint} : Mark.of c = .slash ↔ c = '/' := by
  unfold Mark.of
  split
  · next h => simp [h]
  · split
    · next h => simp [h]
    · next h => simp [h]

/-- A watch sees every comment. -/
theorem comment_along (watch : Watch) (s : Text) :
    (watch.along s).comment =
      (watch.comment ||
        (watch.mark = .slash && (s.head? = some (.char '/') || s.head? = some (.char '*'))) ||
        Text.includes s "//" || Text.includes s "/*") := by
  have hline : ("//" : Text) = [.char '/', .char '/'] := rfl
  have hblock : ("/*" : Text) = [.char '/', .char '*'] := rfl
  rw [hline, hblock]
  induction s generalizing watch with
  | nil => simp [Text.includes, Text.find?]
  | cons c s ih =>
      rw [along_cons, ih, Text.includes_cons, Text.includes_cons]
      simp only [next, of_eq_slash, List.head?_cons, Option.some.injEq, Bool.decide_and]
      cases decide (c = '/') <;> cases Text.includes s [.char '/', .char '/'] <;>
        cases Text.includes s [.char '/', .char '*'] <;> simp [Bool.or_assoc]

/-- A comment is seen exactly where one of its openings stands. -/
theorem comment_along_eq_false {s : Text} :
    (along {} s).comment = false ↔
      Text.includes s "//" = false ∧ Text.includes s "/*" = false := by
  rw [comment_along]
  simp

/-! ## Gaps -/

/-- The characters that count. -/
def counted : Text :=
  [.char '#', .char '/', .char '*', .char '(', .char ')', .char '[', .char ']',
    .char '\x7b', .char '\x7d']

/-- A character that does not count. -/
def IsMild (c : CodePoint) : Prop :=
  c ∉ counted

instance (c : CodePoint) : Decidable (IsMild c) :=
  inferInstanceAs (Decidable (c ∉ counted))

/-- A class without the counted characters holds mild ones only. -/
theorem isMild_of_class {p : CodePoint → Bool} (h : ∀ d ∈ counted, p d = false) {c : CodePoint}
    (hc : p c) : IsMild c := by
  intro hmem
  rw [h c hmem] at hc
  cases hc

/-- Blanks are mild. -/
theorem isMild_of_isBlank {c : CodePoint} (h : Text.isBlank c) : IsMild c :=
  isMild_of_class (by decide) h

theorem isMild_of_mem_spaces {c : CodePoint} {n : Nat} (h : c ∈ Text.spaces n) : IsMild c := by
  rw [List.eq_of_mem_replicate h]
  decide

theorem isMild_of_isWord {c : CodePoint} (h : Text.isWord c) : IsMild c :=
  isMild_of_class (by decide) h

/-- The characters of names are mild. -/
theorem isMild_of_isNamePart {c : CodePoint} (h : Scan.isNamePart c) : IsMild c :=
  isMild_of_class (by decide) h

/-- A character that does not count leaves a plain mark and the same brackets. -/
theorem next_of_isMild {c : CodePoint} (h : IsMild c) (watch : Watch) :
    watch.next c = { watch with mark := .plain } := by
  simp only [IsMild, counted, List.mem_cons, List.not_mem_nil, or_false, not_or] at h
  obtain ⟨hhash, hslash, hstar, hopen, hclose, hsquare, hsquare', hbrace, hbrace'⟩ := h
  have hof : Mark.of c = .plain := by simp [Mark.of, hhash, hslash]
  have hopening : Bracket.isOpening c = false := by
    simp [Bracket.isOpening, hopen, hsquare, hbrace]
  have hclosing : Bracket.isClosing c = false := by
    simp [Bracket.isClosing, hclose, hsquare', hbrace']
  obtain ⟨mark, comment, depth⟩ := watch
  cases depth <;>
    simp [next, Depth.next, hof, hopening, hclosing, hopen, hslash, hstar]

/-- Behind a plain character nothing counts in a gap. -/
theorem along_of_isMild {watch : Watch} {s : Text} (hmark : watch.mark = .plain)
    (h : ∀ c ∈ s, IsMild c) : watch.along s = watch := by
  induction s with
  | nil => rfl
  | cons c s ih =>
      obtain ⟨hc, hs⟩ := List.forall_mem_cons.1 h
      have hsame : watch.next c = watch := by
        rw [next_of_isMild hc, ← hmark]
      rw [along_cons, hsame, ih hs]

/-- Only a parenthesis, a slash and a star look at the mark in front of them. -/
theorem next_plain (watch : Watch) {c : CodePoint} (h : c ≠ '(' ∧ c ≠ '/' ∧ c ≠ '*') :
    next { watch with mark := .plain } c = watch.next c := by
  obtain ⟨mark, comment, depth⟩ := watch
  cases depth <;> simp [next, Depth.next, h]

/-- A gap does not count in front of a character that pairs with none. -/
theorem along_gap (watch : Watch) {gap : Text} (hgap : ∀ c ∈ gap, IsMild c) {c : CodePoint}
    (h : c ≠ '(' ∧ c ≠ '/' ∧ c ≠ '*') (s : Text) :
    watch.along (gap ++ c :: s) = watch.along (c :: s) := by
  cases gap with
  | nil => rfl
  | cons d gap =>
      obtain ⟨hd, hgap⟩ := List.forall_mem_cons.1 hgap
      rw [List.cons_append, along_cons, along_append, next_of_isMild hd, along_of_isMild rfl hgap,
        along_cons, along_cons, next_plain watch h]

/-- A last character that pairs with none leaves no mark. -/
theorem mark_along_append {watch : Watch} {s : Text} {c : CodePoint} (h : Mark.of c = .plain) :
    (watch.along (s ++ [c])).mark = .plain := by
  rw [along_append]
  exact h

/-- Tabs count no more than the spaces in their place. -/
theorem along_expandTabs (width : Nat) (hwidth : 0 < width) (s : Text) (watch : Watch) :
    watch.along (Text.expandTabs width s) = watch.along s := by
  have hgo : ∀ column (watch : Watch),
      watch.along (Text.expandTabs.go width column s) = watch.along s := by
    induction s with
    | nil => exact fun _ _ => rfl
    | cons c s ih =>
        intro column watch
        unfold Text.expandTabs.go
        split
        · next htab =>
            have hpos : 0 < width - column % width :=
              Nat.sub_pos_of_lt (Nat.mod_lt column hwidth)
            obtain ⟨k, hk⟩ : ∃ k, width - column % width = k + 1 :=
              ⟨width - column % width - 1, by omega⟩
            have hspace : IsMild ' ' := by decide
            have htabMild : IsMild c := by
              rw [htab]
              decide
            dsimp only
            rw [hk, Text.spaces, List.replicate_succ, along_append, ih, along_cons, along_cons,
              next_of_isMild hspace, next_of_isMild htabMild]
            exact congrArg (along · s) (along_of_isMild rfl fun d => isMild_of_mem_spaces)
        · split
          · rw [along_cons, along_cons, ih]
          · rw [along_cons, along_cons, ih]
  exact hgo 0 watch

/-! ## Changing a text -/

/-- A text whose last character pairs with none. -/
def EndsPlain (s : Text) : Prop :=
  ∀ c ∈ s.getLast?, Mark.of c = .plain

/-- A mild character that has one place on a line and ends none. -/
def IsNeat (c : CodePoint) : Prop :=
  IsMild c ∧ c ≠ '\t' ∧ c ≠ '\n' ∧ c ≠ '\r'

instance (c : CodePoint) : Decidable (IsNeat c) :=
  inferInstanceAs (Decidable (IsMild c ∧ c ≠ '\t' ∧ c ≠ '\n' ∧ c ≠ '\r'))

theorem IsNeat.flat {c : CodePoint} (h : IsNeat c) : c ≠ '\t' ∧ c ≠ '\n' :=
  ⟨h.2.1, h.2.2.1⟩

/-- `MayBecome s t` holds if `t` may stand where `s` stands behind a plain character: the same
counts behind it, and whatever is new in it is neat. -/
structure MayBecome (s t : Text) : Prop where
  along_eq : ∀ watch : Watch, watch.mark = .plain → watch.along t = watch.along s
  mem_or : ∀ c ∈ t, c ∈ s ∨ IsNeat c

theorem isNeat_of_isNamePart {c : CodePoint} (h : Scan.isNamePart c) : IsNeat c := by
  refine ⟨isMild_of_isNamePart h, ?_, ?_, ?_⟩
  all_goals
    rintro rfl
    cases h

theorem isNeat_of_mem_spaces {c : CodePoint} {n : Nat} (h : c ∈ Text.spaces n) : IsNeat c := by
  refine ⟨isMild_of_mem_spaces h, ?_⟩
  rw [List.eq_of_mem_replicate h]
  decide

/-- A text whose last character pairs with none leaves no mark, wherever it starts without one. -/
theorem mark_along {watch : Watch} {s : Text} (hmark : watch.mark = .plain) (h : EndsPlain s) :
    (watch.along s).mark = .plain := by
  rcases List.eq_nil_or_concat s with rfl | ⟨front, c, rfl⟩
  · exact hmark
  · rw [List.concat_eq_append] at h ⊢
    exact mark_along_append (h c (by simp))

theorem endsPlain_of_isMild {s : Text} (h : ∀ c ∈ s, IsMild c) : EndsPlain s := by
  intro c hc
  have hmild := h c (List.mem_of_getLast? hc)
  exact congrArg Watch.mark (next_of_isMild hmild {})

theorem endsPlain_append {s : Text} {c : CodePoint} (h : Mark.of c = .plain) :
    EndsPlain (s ++ [c]) := by
  intro d hd
  rw [List.getLast?_concat] at hd
  rwa [← Option.some.inj hd]

namespace MayBecome

variable {s t s' t' : Text}

theorem refl (s : Text) : MayBecome s s :=
  ⟨fun _ _ => rfl, fun _ => .inl⟩

theorem trans {u : Text} (h : MayBecome s t) (h' : MayBecome t u) : MayBecome s u := by
  refine ⟨fun watch hmark => (h'.along_eq watch hmark).trans (h.along_eq watch hmark), ?_⟩
  intro c hc
  rcases h'.mem_or c hc with hc | hneat
  · exact h.mem_or c hc
  · exact .inr hneat

/-- Two texts in a row may be changed one by one. -/
theorem append (h : MayBecome s t) (hplain : EndsPlain s) (h' : MayBecome s' t') :
    MayBecome (s ++ s') (t ++ t') := by
  refine ⟨fun watch hmark => ?_, fun c hc => ?_⟩
  · rw [along_append, along_append, h.along_eq watch hmark, h'.along_eq _ (mark_along hmark hplain)]
  · rcases List.mem_append.1 hc with hc | hc
    · exact (h.mem_or c hc).imp_left (List.mem_append_left s')
    · exact (h'.mem_or c hc).imp_left (List.mem_append_right s)

/-- Between plain characters a gap may become any other. -/
theorem of_isMild (hs : ∀ c ∈ s, IsMild c) (ht : ∀ c ∈ t, IsNeat c) : MayBecome s t := by
  refine ⟨fun watch hmark => ?_, fun c hc => .inr (ht c hc)⟩
  rw [along_of_isMild hmark hs, along_of_isMild hmark fun c hc => (ht c hc).1]

/-- Mild characters in front may be left out. -/
theorem mild_append (hs : ∀ c ∈ s, IsMild c) (h : MayBecome s' t) : MayBecome (s ++ s') t :=
  (of_isMild hs (List.forall_mem_nil _)).append (endsPlain_of_isMild hs) h

/-- Neat characters may be put in front. -/
theorem neat_append (ht : ∀ c ∈ t, IsNeat c) (h : MayBecome s t') : MayBecome s (t ++ t') :=
  append (of_isMild (List.forall_mem_nil _) ht) (endsPlain_of_isMild (List.forall_mem_nil _)) h

/-- The gap in front of a character that pairs with none may become any other. -/
theorem gap {gap gap' : Text} (hgap : ∀ c ∈ gap, IsMild c) (hgap' : ∀ c ∈ gap', IsNeat c)
    {c : CodePoint} (h : c ≠ '(' ∧ c ≠ '/' ∧ c ≠ '*') (s rest : Text) :
    MayBecome (s ++ (gap ++ c :: rest)) (s ++ (gap' ++ c :: rest)) := by
  refine ⟨fun watch _ => ?_, fun d hd => ?_⟩
  · rw [along_append watch s (gap' ++ _), along_append watch s (gap ++ _), along_gap _ hgap h,
      along_gap _ (fun d hd => (hgap' d hd).1) h]
  · rw [List.mem_append, List.mem_append] at hd ⊢
    rcases hd with hd | hd | hd
    · exact .inl (.inl hd)
    · exact .inr (hgap' d hd)
    · exact .inl (.inr (.inr hd))

end MayBecome
end Watch
end VerilogLayout

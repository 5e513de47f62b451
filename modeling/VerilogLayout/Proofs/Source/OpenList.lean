import VerilogLayout.Proofs.Literal.Open
import VerilogLayout.Proofs.Source.Aligned

/-!
# Lists of parameters over several lines

Which column a connection gets depends on whether its line starts in a list of parameters. An
`OpenList` is what a lexer knows of that: how many brackets are open since `#(`. The aligner looks
at one line at a time instead, and `inParameters_along_iff` says for which lines it comes to the
same result.
-/

namespace VerilogLayout

/-! ## Brackets behind `#(` -/

/-- What a lexer knows of the list of parameters that is open. Brackets of all forms count as one
kind. -/
structure OpenList where
  lexing : Lexing := .code false
  /-- The last character outside of strings. -/
  mark : Mark := .plain
  /-- The brackets that are open since `#(`, or none if no list is open. -/
  depth : Nat := 0

namespace OpenList

/-- The open brackets behind one more character of code. -/
def depthBehind (mark : Mark) (depth : Nat) (c : CodePoint) : Nat :=
  if depth = 0 then if mark = .hash ∧ c = '(' then 1 else 0
  else if Bracket.isOpening c then depth + 1
  else if Bracket.isClosing c then depth - 1
  else depth

/-- What is known behind one more character. Nothing in a string or a comment counts. -/
def next (list : OpenList) (c : CodePoint) : OpenList where
  lexing := list.lexing.next c
  mark := if list.lexing.IsCode then .of c else list.mark
  depth := if list.lexing.IsCode then depthBehind list.mark list.depth c else list.depth

/-- What is known behind a text. -/
def along (list : OpenList) (s : Text) : OpenList :=
  s.foldl next list

/-- A list of parameters is open. -/
def isInside (list : OpenList) : Bool :=
  list.depth ≠ 0

/-- What is known in front of the lines of a text and behind the last one. -/
def atLines (list : OpenList) : List Text → List OpenList
  | [] => [list]
  | line :: lines => list :: atLines ((list.along line).next '\n') lines

/-- The watch has seen the same last character, and no comment. -/
structure Sees (watch : Watch) (list : OpenList) : Prop where
  follows : list.lexing.Follows watch
  mark : list.mark = if list.lexing.IsCode then watch.mark else .plain

end OpenList

/-- At least `n` brackets are open behind the first `#(`, or they do not match. -/
def Depth.Covers (n : Nat) : Depth → Prop
  | .outside => n = 0
  | .inside m => n ≤ m
  | .broken => True

/-- A character that is no bracket. -/
def Bracket.IsNone (c : CodePoint) : Prop :=
  isOpening c = false ∧ isClosing c = false

namespace Depth

variable {n : Nat} {depth : Depth}

/-- A watcher that covers the depth covers the depth behind one more character. -/
theorem Covers.next (h : depth.Covers n) (mark : Mark) (c : CodePoint) :
    (depth.next mark c).Covers (OpenList.depthBehind mark n c) := by
  -- The watcher counts every bracket behind the first `#(`, the list only those behind the last
  -- one, so the watcher never counts less.
  cases depth with
  | outside =>
      obtain rfl : n = 0 := h
      rw [Depth.next, OpenList.depthBehind, if_pos rfl]
      split
      · exact Nat.le_refl 1
      · rfl
  | inside m =>
      have hle : n ≤ m := h
      have hparen : mark = .hash ∧ c = '(' → Bracket.isOpening c := by
        rintro ⟨-, rfl⟩
        rfl
      rw [Depth.next]
      by_cases hopening : Bracket.isOpening c
      · rw [if_pos hopening]
        show OpenList.depthBehind mark n c ≤ m + 1
        rw [OpenList.depthBehind, if_pos hopening]
        split
        · split <;> omega
        · omega
      · have hless : OpenList.depthBehind mark n c ≤ n := by
          rw [OpenList.depthBehind, if_neg (mt hparen hopening), if_neg hopening]
          split
          · omega
          · split <;> omega
        rw [if_neg hopening]
        by_cases hclosing : Bracket.isClosing c
        · rw [if_pos hclosing]
          split
          · trivial
          · show OpenList.depthBehind mark n c ≤ m - 1
            rw [OpenList.depthBehind, if_neg (mt hparen hopening), if_neg hopening, if_pos hclosing]
            split <;> omega
        · rw [if_neg hclosing]
          exact hless.trans hle
  | broken => trivial

/-- A character that is no bracket changes no depth. -/
theorem Covers.skip (h : depth.Covers n) (mark : Mark) {c : CodePoint} (hc : Bracket.IsNone c) :
    (depth.next mark c).Covers n := by
  cases depth with
  | outside =>
      have hparen : c ≠ '(' := by
        rintro rfl
        cases hc.1
      rw [Depth.next, if_neg fun hboth => hparen hboth.2]
      exact h
  | inside m =>
      rw [Depth.next, hc.1, hc.2, if_neg Bool.false_ne_true, if_neg Bool.false_ne_true]
      exact h
  | broken => trivial

/-- A depth that is covered is open unless it is zero. -/
theorem Covers.isOpen (h : depth.Covers n) (hn : n ≠ 0) : depth.isOpen := by
  cases depth with
  | outside => exact absurd h hn
  | inside m =>
      have hle : n ≤ m := h
      exact decide_eq_true (by omega)
  | broken => rfl

end Depth

/-- A line without comments whose strings hold no brackets. -/
structure IsUncommented (line : Text) : Prop where
  no_lineComment : Text.includes line "//" = false
  no_blockComment : Text.includes line "/*" = false
  strings : ∀ l ∈ (Lexing.code false).shown line, ∀ c ∈ l, Bracket.IsNone c

instance (c : CodePoint) : Decidable (Bracket.IsNone c) :=
  inferInstanceAs (Decidable (_ ∧ _))

instance (line : Text) : Decidable (IsUncommented line) :=
  decidable_of_iff
    (Text.includes line "//" = false ∧ Text.includes line "/*" = false ∧
      ∀ l ∈ (Lexing.code false).shown line, ∀ c ∈ l, Bracket.IsNone c)
    ⟨fun ⟨hline, hblock, hstrings⟩ => ⟨hline, hblock, hstrings⟩, fun ⟨hline, hblock, hstrings⟩ =>
      ⟨hline, hblock, hstrings⟩⟩

/-- In a line without comments the watcher sees none. -/
theorem IsUncommented.comment_eq {line : Text} (h : IsUncommented line) :
    (Watch.along {} line).comment = false :=
  Watch.comment_along_eq_false.2 ⟨h.no_lineComment, h.no_blockComment⟩

namespace OpenList

section
variable {watch : Watch} {list : OpenList}

/-- A list that is seen in front of a character is seen behind it. -/
theorem Sees.next (h : list.Sees watch) {c : CodePoint} (hc : (watch.next c).comment = false) :
    (list.next c).Sees (watch.next c) := by
  have hfollows := h.follows.next hc
  refine ⟨hfollows, ?_⟩
  obtain ⟨lexing, mark, depth⟩ := list
  have hmark : mark = if lexing.IsCode then watch.mark else .plain := h.mark
  change (if lexing.IsCode then Mark.of c else mark) =
    if (lexing.next c).IsCode then Mark.of c else .plain
  -- The mark is read in code only; a string leaves it plain, as the character that ends it does.
  cases lexing with
  | code slash =>
      rw [if_pos ⟨slash, rfl⟩]
      split
      · rfl
      · next hcode =>
          rw [Lexing.next] at hfollows hcode
          split at hfollows
          · cases hfollows
          · split at hfollows
            · cases hfollows
            · split at hfollows
              · next hquote =>
                  rw [hquote]
                  rfl
              · rw [if_neg ‹_›, if_neg ‹_›, if_neg ‹_›] at hcode
                exact absurd ⟨_, rfl⟩ hcode
  | string escaped body =>
      rw [if_neg (Lexing.not_isCode_string escaped body)] at hmark
      rw [if_neg (Lexing.not_isCode_string escaped body), hmark]
      split
      · next hcode =>
          rw [Lexing.next] at hcode
          split at hcode
          · next hends => rcases hends with rfl | ⟨-, rfl⟩ <;> rfl
          · exact absurd hcode (Lexing.not_isCode_string _ _)
      · rfl
  | lineComment => cases h.follows
  | blockComment star body => cases h.follows

theorem along_cons (list : OpenList) (c : CodePoint) (s : Text) :
    list.along (c :: s) = (list.next c).along s :=
  rfl

/-- A list that is seen in front of a text without comments is seen behind it. -/
theorem Sees.along (h : list.Sees watch) {s : Text} (hs : (watch.along s).comment = false) :
    (list.along s).Sees (watch.along s) := by
  induction s generalizing list watch with
  | nil => exact h
  | cons c s ih => exact ih (h.next (Lexing.comment_eq_false_of_along hs)) hs

/-- The watch, which reads strings as code, sees as many brackets. -/
theorem Sees.covers_along (h : list.Sees watch) {s : Text} (hs : .char '\n' ∉ s)
    (hcomment : (watch.along s).comment = false)
    (hstrings : ∀ l ∈ list.lexing.shown s, ∀ c ∈ l, Bracket.IsNone c)
    (hcovers : watch.depth.Covers list.depth) :
    (watch.along s).depth.Covers (list.along s).depth := by
  induction s generalizing list watch with
  | nil => exact hcovers
  | cons c s ih =>
      have hnext := h.next (Lexing.comment_eq_false_of_along hcomment)
      have hmore : ∀ l ∈ (list.next c).lexing.shown s, ∀ c ∈ l, Bracket.IsNone c :=
        fun l hl => hstrings l (by rw [Lexing.shown_cons]; exact List.mem_append_right _ hl)
      refine ih hnext (fun hmem => hs (List.mem_cons_of_mem c hmem)) hcomment hmore ?_
      have hmark := h.mark
      by_cases hcode : list.lexing.IsCode
      · rw [if_pos hcode] at hmark
        show (watch.depth.next watch.mark c).Covers (if _ then _ else _)
        rw [if_pos hcode, hmark]
        exact hcovers.next _ c
      · show (watch.depth.next watch.mark c).Covers (if _ then _ else _)
        rw [if_neg hcode]
        have hin : list.lexing.IsInside := by
          have hfollows := h.follows
          cases hlexing : list.lexing with
          | code slash => exact absurd ⟨slash, hlexing⟩ hcode
          | string escaped body => trivial
          | lineComment => rw [hlexing] at hfollows; cases hfollows
          | blockComment star body => trivial
        obtain ⟨l, hl, hc⟩ := Lexing.exists_mem_shown hin hs
        exact hcovers.skip _ (hstrings l hl c hc)

/-- A line feed ends what a line has left open, but for a list of parameters. -/
theorem Sees.next_feed (h : list.Sees watch) : list.next '\n' = { depth := list.depth } := by
  obtain ⟨lexing, mark, depth⟩ := list
  have hmark : mark = if lexing.IsCode then watch.mark else .plain := h.mark
  cases lexing with
  | code slash =>
      have hdepth : depthBehind mark depth '\n' = depth := by
        cases depth <;> simp [depthBehind, Bracket.isOpening, Bracket.isClosing]
      rw [OpenList.next, Lexing.next_feed ⟨slash, rfl⟩, if_pos ⟨slash, rfl⟩, if_pos ⟨slash, rfl⟩]
      exact congrArg (OpenList.mk (.code false) .plain) hdepth
  | string escaped body =>
      rw [if_neg (Lexing.not_isCode_string escaped body)] at hmark
      rw [hmark]
      rfl
  | lineComment => cases h.follows
  | blockComment star body => cases h.follows

end

/-- At the start of a line there is nothing to be seen yet. -/
theorem sees_start (depth : Nat) : Sees {} { depth } :=
  ⟨nofun, rfl⟩

/-- A list that is opened on a line and stays open is found to be open. -/
theorem opensParameters_of_isInside {line : Text} (hline : .char '\n' ∉ line)
    (h : IsUncommented line)
    (hinside : (along {} line).isInside) : BlockState.opensParameters line := by
  have hcovers := (sees_start 0).covers_along hline h.comment_eq h.strings rfl
  rw [← Watch.isOpen_along line .plain false (.inl nofun)]
  exact hcovers.isOpen (of_decide_eq_true hinside)

end OpenList

/-! ## Lines -/

/-- A line that leaves a list of parameters open or closed in a way that shows. -/
structure IsTidy (list : OpenList) (line : Text) : Prop where
  /-- What stands behind the first `#(` is balanced, if no list is open at the end of the line. -/
  balanced : (list.along line).isInside = false → BlockState.opensParameters line = false
  /-- A list that was open is closed on a line that starts with a closing parenthesis. -/
  closing : list.isInside → (list.along line).isInside = false →
    Text.startsWith (Text.trim line) ")"
  /-- A line in a list that starts with a closing parenthesis closes the list or opens another. -/
  going : list.isInside → (list.along line).isInside → Text.startsWith (Text.trim line) ")" →
    BlockState.opensParameters line

instance (list : OpenList) (line : Text) : Decidable (IsTidy list line) :=
  decidable_of_iff
    (((list.along line).isInside = false → BlockState.opensParameters line = false) ∧
      (list.isInside → (list.along line).isInside = false →
        Text.startsWith (Text.trim line) ")") ∧
      (list.isInside → (list.along line).isInside → Text.startsWith (Text.trim line) ")" →
        BlockState.opensParameters line))
    ⟨fun ⟨hbalanced, hclosing, hgoing⟩ => ⟨hbalanced, hclosing, hgoing⟩,
      fun ⟨hbalanced, hclosing, hgoing⟩ => ⟨hbalanced, hclosing, hgoing⟩⟩

/-- A line without comments is code to its end. -/
theorem IsUncommented.code_eq {line : Text} (h : IsUncommented line) :
    BlockState.code line = line :=
  Text.before_eq_self h.no_lineComment

/-- An uncommented line belongs to a block comment only if the line before does. -/
theorem IsUncommented.keeps_eq {line : Text} (h : IsUncommented line) (state : BlockState) :
    state.keeps line = state.inComment := by
  rw [BlockState.keeps, h.code_eq, h.no_blockComment, Bool.or_false]

/-- Outside of comments a line only opens and closes lists of parameters. -/
theorem BlockState.next_of_isUncommented {state : BlockState} (hopen : state.inComment = false)
    {line : Text} (h : IsUncommented line) :
    state.next line = { state with
      inParameters := opensParameters line ||
        (state.inParameters && !Text.startsWith (Text.trim line) ")") } := by
  obtain ⟨inComment, inParameters⟩ := state
  obtain rfl : inComment = false := hopen
  unfold next
  dsimp only
  rw [h.keeps_eq, h.code_eq, if_neg Bool.false_ne_true]
  cases opensParameters line with
  | true => rfl
  | false =>
      cases inParameters with
      | false => rfl
      | true =>
          cases Text.startsWith (Text.trim line) ")" <;> rfl

/-- A line's result is right if and only if the line is tidy. -/
theorem inParameters_next_iff {state : BlockState} (hopen : state.inComment = false) {line : Text}
    (hline : .char '\n' ∉ line) (h : IsUncommented line) {depth : Nat}
    (hflag : state.inParameters = ({ depth } : OpenList).isInside) :
    (state.next line).inParameters = (OpenList.along { depth } line).isInside ↔
      IsTidy { depth } line := by
  have hopens : depth = 0 → (OpenList.along { depth } line).isInside →
      BlockState.opensParameters line := by
    rintro rfl
    exact OpenList.opensParameters_of_isInside hline h
  rw [BlockState.next_of_isUncommented hopen h, hflag]
  -- Where the line leaves no list open, nothing may raise the flag and a leading parenthesis must
  -- lower it; where it leaves one open, it must not be lowered for good.
  cases hafter : (OpenList.along { depth } line).isInside with
  | false =>
      rw [Bool.or_eq_false_iff, Bool.and_eq_false_iff, Bool.not_eq_false']
      constructor
      · rintro ⟨hopens, hcloses⟩
        exact ⟨fun _ => hopens, fun hin _ => hcloses.resolve_left (by simp [hin]),
          fun _ hin => absurd hin (by simp [hafter])⟩
      · rintro ⟨hbalanced, hclosing, -⟩
        refine ⟨hbalanced hafter, ?_⟩
        cases hin : ({ depth } : OpenList).isInside with
        | false => exact .inl rfl
        | true => exact .inr (hclosing hin hafter)
  | true =>
      rw [Bool.or_eq_true, Bool.and_eq_true, Bool.not_eq_true']
      constructor
      · intro hright
        refine ⟨fun hout => absurd hafter (by simp [hout]), fun _ hout => ?_, fun _ _ hcloses => ?_⟩
        · exact absurd hafter (by simp [hout])
        · exact hright.resolve_right fun hboth =>
            Bool.false_ne_true (hboth.2.symm.trans hcloses)
      · intro htidy
        by_cases hdepth : depth = 0
        · exact .inl (hopens hdepth hafter)
        · have hin : ({ depth } : OpenList).isInside := decide_eq_true hdepth
          cases hcloses : Text.startsWith (Text.trim line) ")" with
          | false => exact .inr ⟨hin, rfl⟩
          | true => exact .inl (htidy.going hin hafter hcloses)

/-- States that agree along some lines agree at the first of them. -/
theorem inParameters_eq_of_along {state : BlockState} {list : OpenList} {lines : List Text}
    (h : (state.along lines).map BlockState.inParameters =
      (list.atLines lines).map OpenList.isInside) : state.inParameters = list.isInside := by
  cases lines with
  | nil => exact (List.cons.inj h).1
  | cons line lines => exact (List.cons.inj h).1

/-- The aligner's notion of open lists is right for all lines if and only if all lines are tidy. -/
theorem inParameters_along_iff {lines : List Text} (hfeed : ∀ line ∈ lines, .char '\n' ∉ line)
    (h : ∀ line ∈ lines, IsUncommented line) {state : BlockState} (hopen : state.inComment = false)
    {depth : Nat} (hflag : state.inParameters = ({ depth } : OpenList).isInside) :
    (state.along lines).map BlockState.inParameters =
        (OpenList.atLines { depth } lines).map OpenList.isInside ↔
      ∀ p ∈ (OpenList.atLines { depth } lines).zip lines, IsTidy p.1 p.2 := by
  induction lines generalizing state depth with
  | nil => exact ⟨fun _ => nofun, fun _ => congrArg ([·]) hflag⟩
  | cons line lines ih =>
      obtain ⟨hline, hfeed⟩ := List.forall_mem_cons.1 hfeed
      obtain ⟨hbare, h⟩ := List.forall_mem_cons.1 h
      have hiff := inParameters_next_iff hopen hline hbare hflag
      have hnext := ((OpenList.sees_start depth).along hbare.comment_eq).next_feed
      have hopen' : (state.next line).inComment = false := by
        rw [BlockState.next_of_isUncommented hopen hbare]
        exact hopen
      rw [BlockState.along, OpenList.atLines, List.map_cons, List.map_cons, hflag,
        List.zip_cons_cons, List.forall_mem_cons, ← hiff, hnext, List.cons_inj_right]
      constructor
      · intro hall
        have hfirst := inParameters_eq_of_along hall
        exact ⟨hfirst, (ih hfeed h hopen' hfirst).1 hall⟩
      · rintro ⟨hfirst, htidy⟩
        exact (ih hfeed h hopen' hfirst).2 htidy

/-! ## Connections -/

open CodeLine LineForm

/-- In front of uncommented lines no block comment is open. -/
theorem inComment_of_isUncommented {lines : List Text} (h : ∀ line ∈ lines, IsUncommented line)
    {state : BlockState} (hopen : state.inComment = false) :
    ∀ before ∈ state.along lines, before.inComment = false := by
  induction lines generalizing state with
  | nil => exact List.forall_mem_singleton.2 hopen
  | cons line lines ih =>
      obtain ⟨hline, hlines⟩ := List.forall_mem_cons.1 h
      refine List.forall_mem_cons.2 ⟨hopen, ih hlines ?_⟩
      rw [BlockState.next_of_isUncommented hopen hline]
      exact hopen

/-- An uncommented line with a form is laid out as that form. -/
theorem alignLine_of_isUncommented (columns : Columns) (inParameters : Bool) {line : Text}
    (h : IsUncommented line) {parts : CodeLine} {form : LineForm}
    (hparts : ofLine? line = some parts) (hform : ofCode? parts.code = some form) :
    alignLine columns inParameters line = form.layout columns parts.indent inParameters := by
  obtain ⟨front, gap, back, -, -, -, hsplit, -, -, hcomment⟩ := of_ofLine? hparts
  have hnil : parts.comment = [] := by
    refine hcomment.starts.resolve_right ?_
    rintro ⟨t, ht⟩
    have hplain := h.comment_eq
    rw [← Watch.along_expandTabs indentWidth (by decide), Watch.comment_along_eq_false] at hplain
    have hinfix : [.char '/', .char '/'] <:+: Text.expandTabs indentWidth line := by
      rw [hsplit, ht]
      exact ⟨front ++ (parts.code ++ gap), t ++ back, by simp⟩
    exact absurd (Text.includes_eq_false_of_infix hplain.1 hinfix) (by decide)
  rw [alignLine, hparts, Option.bind_some, aligned?, hform, hnil]
  rfl

/-- Lines are aligned one by one, each with the state in front of it. -/
theorem alignLines_eq_zipWith (columns : Columns) (lines : List Text) (state : BlockState) :
    alignLines columns state lines =
      List.zipWith (fun before line =>
        if before.keeps line then line else alignLine columns before.inParameters line)
        (state.along lines) lines := by
  induction lines generalizing state with
  | nil => rfl
  | cons line lines ih =>
      rw [alignLines, BlockState.along, List.zipWith_cons_cons, ih]

/-- In a text of uncommented lines the aligner's notion of open lists is right if and only if all
lines are tidy; then the connections on lines that start in a list stand at the column for
parameters, and all others at the column for ports. -/
theorem alignText_connections (columns : Columns) {text : Text}
    (h : ∀ line ∈ List.splitOn (.char '\n') text, IsUncommented line) :
    let lines := List.splitOn (.char '\n') text
    let lists := OpenList.atLines {} lines
    ((BlockState.along {} lines).map BlockState.inParameters = lists.map OpenList.isInside ↔
      ∀ p ∈ lists.zip lines, IsTidy p.1 p.2) ∧
    ((∀ p ∈ lists.zip lines, IsTidy p.1 p.2) →
      ∀ (i : Nat) (line : Text) (list : OpenList) (parts : CodeLine) (name value terminator : Text),
        lines[i]? = some line → lists[i]? = some list → ofLine? line = some parts →
          ofCode? parts.code = some (.connection name value terminator) →
            let shift := shiftFor parts.indent connectionIndent
            let start := connectionIndent + shift
            let column := if list.isInside then columns .parameterValue else columns .portValue
            (List.splitOn (.char '\n') (alignText columns text))[i]? =
              some (Text.spaces start ++
                Layout.connection name value (column + shift) terminator start)) := by
  intro lines lists
  have hfeed : ∀ line ∈ lines, .char '\n' ∉ line := fun _ => Text.not_mem_of_mem_splitOn
  have hopen : ({} : BlockState).inComment = false := rfl
  have hflag : ({} : BlockState).inParameters = ({ depth := 0 } : OpenList).isInside := rfl
  have hiff := inParameters_along_iff hfeed h hopen hflag
  refine ⟨hiff, fun htidy i line list parts name value terminator hline hlist hparts hform => ?_⟩
  have hflags := congrArg (fun flags => flags[i]?) (hiff.2 htidy)
  rw [List.getElem?_map, List.getElem?_map, hlist] at hflags
  obtain ⟨before, hbefore, hinside⟩ := Option.map_eq_some_iff.1 hflags
  have hbare := h line (List.mem_of_getElem? hline)
  have hkeeps := (hbare.keeps_eq before).trans
    (inComment_of_isUncommented h hopen before (List.mem_of_getElem? hbefore))
  intro shift start column
  rw [splitOn_alignText, alignLines_eq_zipWith, List.getElem?_zipWith, hbefore, hline]
  dsimp only
  rw [hkeeps, if_neg Bool.false_ne_true, hinside,
    alignLine_of_isUncommented columns _ hbare hparts hform]
  rfl

/-- A list that is closed on the line on which the ports are opened. -/
theorem alignText_connections_fifo :
    let columns := Columns.standard.set .parameterValue 40
    let text : Text :=
      "fifo #(\n        .DEPTH(16)\n    ) u_fifo (\n        .clk(clk)\n    );"
    (List.splitOn (.char '\n') (alignText columns text))[1]? =
        some (Text.spaces 8 ++ Layout.connection "DEPTH" "16" 40 [] 8) ∧
      (List.splitOn (.char '\n') (alignText columns text))[3]? =
        some (Text.spaces 8 ++ Layout.connection "clk" "clk" 60 [] 8) := by
  intro columns text
  have hbare : ∀ line ∈ List.splitOn (.char '\n') text, IsUncommented line := by
    decide +kernel
  have htidy : ∀ p ∈ (OpenList.atLines {} (List.splitOn (.char '\n') text)).zip
      (List.splitOn (.char '\n') text),
      IsTidy p.1 p.2 := by
    decide +kernel
  have hlines := (alignText_connections columns hbare).2 htidy
  exact ⟨hlines 1 "        .DEPTH(16)" { depth := 1 } ⟨8, ".DEPTH(16)", []⟩ "DEPTH" "16" [] rfl rfl
    (by decide +kernel) (by decide +kernel),
    hlines 3 "        .clk(clk)" {} ⟨8, ".clk(clk)", []⟩ "clk" "clk" [] rfl rfl
    (by decide +kernel) (by decide +kernel)⟩

/-- A list that is opened and closed on one line seems to stay open if the ports do. -/
example : ¬ IsTidy {} "sub #(.W(8)) u (" ∧
    BlockState.opensParameters "sub #(.W(8)) u (" ∧
      (OpenList.along {} "sub #(.W(8)) u (").isInside = false := by
  decide +kernel

end VerilogLayout

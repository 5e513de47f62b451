import VerilogLayout.Proofs.Source.Tab
import VerilogLayout.Proofs.Source.Watch

/-!
# The parts of a line

A line that may hold a declaration is its code between blanks and a comment behind them,
`of_ofLine?`. Read again from a line that was put together from its parts, they are the same parts,
`of_ofLine?_written`. What a line leaves open depends on its code alone, as `Holds` says.
-/

namespace VerilogLayout

open Text (Stops AllBlank)

/-! ## Reading past blanks -/

/-- Behind mild characters the same is open as in front of them. -/
theorem Watch.along_append_of_isMild {t : Text} (h : ∀ c ∈ t, IsMild c) (watch : Watch) (s : Text) :
    (watch.along (s ++ t)).comment = (watch.along s).comment ∧
      (watch.along (s ++ t)).depth = (watch.along s).depth := by
  rw [along_append]
  cases t with
  | nil => exact ⟨rfl, rfl⟩
  | cons c t =>
      obtain ⟨hc, ht⟩ := List.forall_mem_cons.1 h
      rw [along_cons, next_of_isMild hc, along_of_isMild rfl ht]
      exact ⟨rfl, rfl⟩

theorem Watch.along_blanks {front back : Text} (hfront : AllBlank front) (hback : AllBlank back)
    (s : Text) :
    (along {} (front ++ s ++ back)).comment = (along {} s).comment ∧
      (along {} (front ++ s ++ back)).depth = (along {} s).depth := by
  have hmild : ∀ {t : Text}, AllBlank t → ∀ c ∈ t, IsMild c :=
    fun h c hc => isMild_of_isBlank (h c hc)
  have h := along_append_of_isMild (hmild hback) {} (front ++ s)
  rwa [along_append {} front s, along_of_isMild rfl (hmild hfront)] at h

namespace CodeLine

/-- A line comment with its slashes, or none. -/
structure IsComment (comment : Text) : Prop where
  starts : comment = [] ∨ ∃ t, comment = .char '/' :: .char '/' :: t
  last : Stops Text.isBlank comment.reverse

/-- A code without blanks at its ends, in which no comment starts. -/
structure IsCode (code : Text) : Prop where
  tight : code.IsTight
  plain : (Watch.along {} code).comment = false

/-- The parts of a line, whether or not it is passed over. -/
def partsOf (line : Text) : CodeLine :=
  let expanded := Text.expandTabs indentWidth line
  let trimmed := Text.trim expanded
  let code := Text.before "//" trimmed
  { indent := (expanded.takeWhile (· = .char ' ')).length
    code := Text.trimRight code
    comment := trimmed.drop code.length }

/-- A line is taken apart unless it is passed over. -/
theorem ofLine?_eq_some {line : Text} {parts : CodeLine} :
    ofLine? line = some parts ↔
      passesOver (Text.trim (Text.expandTabs indentWidth line)) = false ∧ partsOf line = parts := by
  rw [← Bool.not_eq_true, ← Option.some.injEq (partsOf line)]
  exact Option.ite_none_left_eq_some

/-- The parts of a line. -/
theorem of_ofLine? {line : Text} {parts : CodeLine} (h : ofLine? line = some parts) :
    ∃ front gap back, AllBlank front ∧ AllBlank gap ∧ AllBlank back ∧
      Text.expandTabs indentWidth line = front ++ (parts.code ++ gap ++ parts.comment) ++ back ∧
        Text.before "//" (parts.code ++ gap ++ parts.comment) = parts.code ++ gap ∧
          IsCode parts.code ∧ IsComment parts.comment := by
  obtain ⟨hpass, rfl⟩ := ofLine?_eq_some.1 h
  unfold partsOf
  dsimp only
  -- The line is taken apart from the outside: the blanks around it, then the comment, then the
  -- gap between the code and the comment.
  obtain ⟨front, back, hsplit, hfront, hback, htight⟩ :=
    Text.exists_trim (Text.expandTabs indentWidth line)
  generalize Text.trim (Text.expandTabs indentWidth line) = trimmed at *
  obtain ⟨happend, hstart⟩ := Text.before_append_drop (a := '/') (b := '/') trimmed
  obtain ⟨gap, hgap, hblank, hlast⟩ := Text.exists_trimRight (Text.before "//" trimmed)
  have htext : trimmed = Text.trimRight (Text.before "//" trimmed) ++ gap ++
      trimmed.drop (Text.before "//" trimmed).length := by
    rw [← hgap]
    exact happend.symm
  have hcomment : Stops Text.isBlank
      (trimmed.drop (Text.before "//" trimmed).length).reverse := by
    have hend := htight.last
    rw [htext, List.reverse_append] at hend
    exact hend.left
  have hcode : Text.IsTight (Text.trimRight (Text.before "//" trimmed)) := by
    refine ⟨?_, hlast⟩
    have hhead := htight.head
    rw [htext, List.append_assoc] at hhead
    exact hhead.left
  refine ⟨front, gap, back, hfront, hblank, hback, ?_, ?_, ⟨hcode, ?_⟩, ⟨?_, hcomment⟩⟩
  · exact hsplit.trans (congrArg (front ++ · ++ back) htext)
  · rw [← htext, ← hgap]
  · rw [Watch.comment_along_eq_false]
    simp only [passesOver, Bool.or_eq_false_iff] at hpass
    constructor
    · refine Text.includes_eq_false_of_infix
        (Text.includes_before (a := '/') (b := '/') trimmed) ⟨[], gap, hgap.symm⟩
    · refine Text.includes_eq_false_of_infix hpass.1.2 ⟨[],
        gap ++ trimmed.drop (Text.before "//" trimmed).length, ?_⟩
      rw [List.nil_append, ← List.append_assoc]
      exact htext.symm
  · rcases hstart with hnil | ⟨t, ht⟩
    · exact .inl hnil
    · exact .inr ⟨t, ht.symm⟩

/-! ## What a line leaves open -/

/-- The line has the code in front of any line comment. -/
def Holds (line code : Text) : Prop :=
  ∃ front back, AllBlank front ∧ AllBlank back ∧
    Text.expandTabs indentWidth (BlockState.code line) = front ++ code ++ back

theorem not_mem_of_allBlank {s : Text} (h : AllBlank s) : .char '/' ∉ s :=
  fun hmem => absurd (h '/' hmem) (by decide)

theorem holds_of_ofLine? {line : Text} {parts : CodeLine} (h : ofLine? line = some parts) :
    Holds line parts.code := by
  obtain ⟨front, gap, back, hfront, hgap, hback, hsplit, hbefore, -, -⟩ := of_ofLine? h
  have hslash := not_mem_of_allBlank hback
  obtain ⟨u, hu, hcut⟩ := Text.exists_before_append hslash hslash
    (parts.code ++ gap ++ parts.comment)
  refine ⟨front, gap ++ u, hfront, List.forall_mem_append.2 ⟨hgap, fun c hc => ?_⟩, ?_⟩
  · exact hback c (hu.subset hc)
  · have htabs := Text.before_expandTabs (show 0 < indentWidth by decide) (a := '/')
      (b := '/') rfl rfl line
    have hfound := Text.before_append_of_not_mem (b := '/') (not_mem_of_allBlank hfront)
      (parts.code ++ gap ++ parts.comment ++ back)
    rw [hsplit, List.append_assoc, hfound, hcut] at htabs
    refine htabs.symm.trans ?_
    have hslashes : ("//" : Text) = [.char '/', .char '/'] := rfl
    rw [hslashes] at hbefore
    rw [hbefore]
    simp only [List.append_assoc]

section
variable {line code : Text} (hholds : Holds line code)
include hholds

theorem along_code :
    (Watch.along {} (BlockState.code line)).comment = (Watch.along {} code).comment ∧
    (Watch.along {} (BlockState.code line)).depth = (Watch.along {} code).depth := by
  obtain ⟨front, back, hfront, hback, heq⟩ := hholds
  rw [← Watch.along_expandTabs indentWidth (by decide), heq]
  exact Watch.along_blanks hfront hback code

/-- No block comment is opened in a line with a code. -/
theorem keeps_eq (hplain : (Watch.along {} code).comment = false) (state : BlockState) :
    state.keeps line = state.inComment := by
  have hopens := (Watch.comment_along_eq_false.1 ((along_code hholds).1.trans hplain)).2
  rw [BlockState.keeps, hopens, Bool.or_false]

theorem opensParameters_eq :
    BlockState.opensParameters (BlockState.code line) = (Watch.along {} code).depth.isOpen := by
  rw [← (along_code hholds).2]
  exact (Watch.isOpen_along _ _ _ (.inl (by decide))).symm

/-- A code that starts with another character closes no list of parameters. -/
theorem closes_eq_false {c : CodePoint} (hhead : code.head? = some c)
    (hblank : Text.isBlank c = false)
    (hc : c ≠ ')') : Text.startsWith (Text.trim (BlockState.code line)) ")" = false := by
  obtain ⟨front, back, hfront, hback, heq⟩ := hholds
  obtain ⟨rest, rfl⟩ := List.head?_eq_some_iff.1 hhead
  have hleft := Text.head?_trimLeft_expandTabs (show 0 < indentWidth by decide)
    (BlockState.code line)
  have hfound : Text.trimLeft (front ++ (c :: rest ++ back)) = c :: rest ++ back :=
    Text.trimLeft_append hfront (Text.stops_cons.2 hblank)
  rw [heq, List.append_assoc, hfound] at hleft
  rw [Bool.eq_false_iff]
  intro hstart
  obtain ⟨t, ht⟩ := Text.startsWith_iff.1 hstart
  obtain ⟨back', hback', -⟩ := Text.exists_trimRight (Text.trimLeft (BlockState.code line))
  rw [← Text.trim_eq, ← ht] at hback'
  rw [hback'] at hleft
  exact hc (Option.some.inj hleft)

/-- What a line leaves open, read off its code. -/
theorem next_eq (hplain : (Watch.along {} code).comment = false) {c : CodePoint}
    (hhead : code.head? = some c) (hblank : Text.isBlank c = false) (hc : c ≠ ')')
    {state : BlockState} (hopen : state.inComment = false) :
    state.next line =
      if (Watch.along {} code).depth.isOpen then { state with inParameters := true }
      else state := by
  unfold BlockState.next
  dsimp only
  rw [keeps_eq hholds hplain, hopen, if_neg Bool.false_ne_true, opensParameters_eq hholds,
    closes_eq_false hholds hhead hblank hc, Bool.and_false, if_neg Bool.false_ne_true]

end

/-! ## Lines put together from their parts -/

/-- A comment behind a space, or nothing. -/
def behind (comment : Text) : Text :=
  if comment.isEmpty then [] else .char ' ' :: comment

/-- A line as it is put together from its parts. -/
def written (start : Nat) (code comment : Text) : Text :=
  Text.spaces start ++ (code ++ behind comment)

section
variable {code comment : Text} (hcode : IsCode code) (hcomment : IsComment comment)
include hcode hcomment

theorem before_written :
    Text.before "//" (code ++ behind comment) =
      code ++ if comment.isEmpty then [] else [.char ' '] := by
  rcases hcomment.starts with rfl | ⟨t, rfl⟩
  · rw [behind, List.isEmpty_nil, if_pos rfl, List.append_nil]
    exact Text.before_eq_self (Watch.comment_along_eq_false.1 hcode.plain).1
  · have hmild : ∀ c ∈ (" " : Text), Watch.IsMild c := by decide
    have hplain : (Watch.along {} (code ++ " ")).comment = false := by
      rw [(Watch.along_append_of_isMild hmild {} code).1, hcode.plain]
    have hlast : (code ++ " ").getLast? ≠ some (.char '/') := by
      simp
    have hcut := Text.before_append (Watch.comment_along_eq_false.1 hplain).1 hlast t
    rw [List.append_assoc] at hcut
    exact hcut

theorem holds_written (htab : .char '\t' ∉ code) (start : Nat) :
    Holds (written start code comment) code := by
  have hfront := Text.before_append_of_not_mem (b := '/')
    (not_mem_of_allBlank (Text.allBlank_spaces start))
    (code ++ behind comment)
  have hbefore := before_written hcode hcomment
  have hslashes : ("//" : Text) = [.char '/', .char '/'] := rfl
  rw [hslashes] at hbefore
  rw [hbefore] at hfront
  refine ⟨Text.spaces start, if comment.isEmpty then [] else [.char ' '],
    Text.allBlank_spaces start,
    ?_, ?_⟩
  · split
    · exact Text.allBlank_nil
    · exact Text.allBlank_spaces 1
  · refine (congrArg (Text.expandTabs indentWidth) hfront).trans ?_
    rw [List.append_assoc]
    refine Text.expandTabs_eq_self (by decide) ?_
    simp only [List.mem_append, not_or]
    refine ⟨fun hmem => absurd (List.eq_of_mem_replicate hmem) (by decide), htab, ?_⟩
    split
    · exact List.not_mem_nil
    · decide

/-- Blanks at the ends of a line that is put together do not reach into its parts. -/
theorem isTight_written (hne : code ≠ []) :
    Text.IsTight (code ++ behind comment) := by
  refine ⟨Text.stops_append_of_ne_nil hne hcode.tight.head _, ?_⟩
  rcases hcomment.starts with rfl | ⟨t, rfl⟩
  · rw [behind, List.isEmpty_nil, if_pos rfl, List.append_nil]
    exact hcode.tight.last
  · have hend := Text.ends_of_stops (List.cons_ne_nil (.char '/') _) hcomment.last
    exact ((hend.append [.char ' ']).append code).stops

/-- Trimming a line that is put together leaves its code and its comment. -/
theorem trim_expandTabs_written (hne : code ≠ []) (htab : .char '\t' ∉ code)
    (htab' : .char '\t' ∉ comment)
    (start : Nat) :
    Text.expandTabs indentWidth (written start code comment) = written start code comment ∧
      Text.trim (written start code comment) = code ++ behind comment := by
  constructor
  · refine Text.expandTabs_eq_self (by decide) ?_
    simp only [written, behind, List.mem_append, not_or]
    refine ⟨fun hmem => absurd (List.eq_of_mem_replicate hmem) (by decide), htab, ?_⟩
    split
    · exact List.not_mem_nil
    · rw [List.mem_cons, not_or]
      exact ⟨by decide, htab'⟩
  · have hfound := Text.trim_append (Text.allBlank_spaces start)
      (isTight_written hcode hcomment hne) Text.allBlank_nil
    rwa [List.append_nil] at hfound

/-- The parts of a line that is written are what it was put together from. -/
theorem partsOf_written (hne : code ≠ []) (htab : .char '\t' ∉ code) (htab' : .char '\t' ∉ comment)
    (start : Nat) : partsOf (written start code comment) = { indent := start, code, comment } := by
  have htight := isTight_written hcode hcomment hne
  have hbefore := before_written hcode hcomment
  obtain ⟨hexpand, htrim⟩ := trim_expandTabs_written hcode hcomment hne htab htab' start
  have hindent : ((written start code comment).takeWhile (· = .char ' ')).length = start := by
    have hstops : Stops (fun c => decide (c = ' '))
        (code ++ behind comment) := by
      intro c hc
      refine decide_eq_false fun heq => ?_
      have hblank := htight.head c hc
      rw [heq] at hblank
      cases hblank
    have hrun : ∀ c ∈ Text.spaces start, decide (c = ' ') = true :=
      fun c hc => decide_eq_true (List.eq_of_mem_replicate hc)
    rw [written, Text.takeWhile_append hrun hstops]
    exact List.length_replicate
  have hcut : Text.trimRight (code ++ if comment.isEmpty then [] else [.char ' ']) = code := by
    refine Text.trimRight_append ?_ hcode.tight.last
    split
    · exact Text.allBlank_nil
    · exact Text.allBlank_spaces 1
  unfold partsOf
  dsimp only
  rw [hexpand, htrim, hbefore, hindent, hcut]
  refine congrArg (CodeLine.mk start code) ?_
  rcases hcomment.starts with rfl | ⟨t, rfl⟩
  · exact List.drop_length
  · have hsplit : code ++ .char ' ' :: .char '/' :: .char '/' :: t =
        code ++ " " ++ .char '/' :: .char '/' :: t := by simp
    exact (congrArg (List.drop (code ++ " ").length) hsplit).trans List.drop_left

/-- The parts of a line are found again. -/
theorem of_ofLine?_written (hne : code ≠ []) (htab : .char '\t' ∉ code)
    (htab' : .char '\t' ∉ comment)
    {start : Nat} {parts : CodeLine} (h : ofLine? (written start code comment) = some parts) :
    parts = { indent := start, code, comment } :=
  (ofLine?_eq_some.1 h).2.symm.trans (partsOf_written hcode hcomment hne htab htab' start)

/-- A line that is not passed over is taken apart into its parts. -/
theorem ofLine?_written (hne : code ≠ []) (htab : .char '\t' ∉ code) (htab' : .char '\t' ∉ comment)
    (hpass : passesOver (code ++ behind comment) = false) (start : Nat) :
    ofLine? (written start code comment) = some { indent := start, code, comment } := by
  obtain ⟨hexpand, htrim⟩ := trim_expandTabs_written hcode hcomment hne htab htab' start
  rw [ofLine?_eq_some, hexpand, htrim]
  exact ⟨hpass, partsOf_written hcode hcomment hne htab htab' start⟩

end
end CodeLine
end VerilogLayout

import VerilogLayout.Proofs.Comments.Statement
import VerilogLayout.Proofs.Plain.Basic

/-!
# Statements without comments

What the renderers of statements write for plain nodes. The comments of headers, blocks and wrappers
are gone from these equations, so each of them shows the text that a renderer puts together.
-/

namespace VerilogLayout

namespace Node

/-- What a block that can be dropped consists of. -/
theorem of_isCollapsible {node : Node} (h : node.isCollapsible) :
    node.kind? = some .seqBlock ∧ ∃ first statement last,
      node.children = [first, statement, last] ∧ first.isLexeme "begin" ∧ last.isLexeme "end" ∧
        statement.isToken = false ∧ statement.unwrap.inner.is Kind.isSimpleAssignment := by
  unfold isCollapsible at h
  split at h
  · next first statement last hchildren =>
      simp only [Bool.and_eq_true, decide_eq_true_eq, Bool.not_eq_true'] at h
      obtain ⟨⟨⟨⟨⟨⟨⟨hkind, hfirst⟩, hlast⟩, -⟩, -⟩, -⟩, htoken⟩, hassignment⟩ := h
      exact ⟨hkind, first, statement, last, hchildren, hfirst, hlast, htoken, hassignment⟩
  · simp at h

/-- No node has the height zero. -/
theorem height_pos (node : Node) : 0 < node.height := by
  obtain ⟨name, value, children, leading, trailing⟩ := node
  exact Nat.succ_pos _

/-- The phrase inside of wrappers is not higher than the wrappers. -/
theorem height_unwrap_le (node : Node) : node.unwrap.inner.height ≤ node.height := by
  fun_induction Node.unwrap node with
  | case1 name value inner leading trailing _ below ih =>
      exact Nat.le_trans ih (Nat.le_of_lt (height_lt_of_mem List.mem_cons_self))
  | case3 name value inner last leading trailing _ below ih =>
      exact Nat.le_trans ih (Nat.le_of_lt (height_lt_of_mem List.mem_cons_self))
  | case2 | case4 | case5 => exact Nat.le_refl _

end Node

namespace Render

open Node

variable (format : Formatter)

/-! ## Blocks and bodies -/

/-- The label of a block with its colon. -/
def blockLabel (node : Node) : List Node :=
  (splitLabel (splitBlock node.children).1).1

/-- The statements of a block. -/
def blockStatements (node : Node) : List Node :=
  (splitLabel (splitBlock node.children).1).2

/-- The first words of a block. -/
def blockTitle (node : Node) : Text :=
  match blockLabel node with
  | [_, name] => "begin : " ++ name.text
  | _ => "begin"

/-- The label of a block is part of its children. -/
theorem blockLabel_subset (node : Node) : blockLabel node ⊆ node.children :=
  fun _ h => splitBlock_fst_subset _ ((splitLabel_subset _).1 h)

/-- A plain block is its title, its statements and the line that ends it. -/
theorem block_plain {node : Node} (h : node.Plain) (level : Int) :
    block format node level [] [] = (do
      let _ ← require node.children.head?
      let lines ← items format (level + 1) (blockStatements node)
      pure (blockTitle node ++ "\n" ++ lines ++ (indentFor level ++ "end" ++ "\n"))) := by
  have hchildren : AllPlain node.children := Within.children h
  cases hfirst : node.children.head? with
  | none => simp [block, hfirst, require]
  | some first =>
      have hhead : AllPlain (first :: blockLabel node) :=
        allWithin_cons.2 ⟨hchildren _ (List.mem_of_mem_head? hfirst),
          hchildren.subset (blockLabel_subset node)⟩
      have hclose : ∀ last ∈ (splitBlock node.children).2, last.Plain :=
        fun last hlast => hchildren last (mem_of_splitBlock_snd hlast)
      unfold block
      simp only [hfirst, require, pure_bind]
      rw [← blockLabel, ← blockStatements, List.nil_append, hhead.commentsAll_eq,
        closingLine_plain hclose]
      simp only [inline_nil, pure_bind, List.append_nil]
      rfl

/-- What follows a plain header that a block stands behind. -/
theorem body_of_block {statement : Node} (h : statement.Plain)
    (hblock : statement.unwrap.inner.opensBlock && !statement.unwrap.inner.isCollapsible)
    (level : Int) :
    body format statement level [] = (do
      let text ← block format statement.unwrap.inner level [] []
      pure (" " ++ text, true)) := by
  obtain ⟨hphrase, -, hwrappers⟩ := within_unwrap h
  have hinner : statement.unwrap.inner.Plain := hphrase
  unfold body
  simp only [hblock, if_true, wrapperLeading_plain hwrappers, wrapperTrailing_plain hwrappers,
    hinner.leading_eq, hinner.trailing_eq, List.append_nil]

/-- What follows a plain header that anything else stands behind. -/
theorem body_of_not_block {statement : Node}
    (hblock : (statement.unwrap.inner.opensBlock && !statement.unwrap.inner.isCollapsible) = false)
    (level : Int) :
    body format statement level [] = (do
      let text ← format statement (level + 1) none
      pure ("\n" ++ text, false)) := by
  unfold body
  simp only [hblock, Bool.false_eq_true, if_false, inline_nil, pure_bind, List.nil_append]

/-- A statement behind a timing control that stands behind the keyword of a construct. -/
theorem timedBody_of_timing {statement control timed : Node} {middle : List Node}
    (h : statement.Plain)
    (hkind : statement.unwrap.inner.kind? = some .proceduralTimingControlStatement)
    (hchildren : statement.unwrap.inner.children = control :: (middle ++ [timed])) (level : Int) :
    timedBody format statement level [] = (do
      let result ← body format timed level []
      pure (" " ++ control.text ++ result.1)) := by
  obtain ⟨hphrase, -, hwrappers⟩ := within_unwrap h
  have hinner : statement.unwrap.inner.Plain := hphrase
  have hcontrol : control.comments = [] :=
    plain_iff.1 (Within.children hphrase control (by rw [hchildren]; exact List.mem_cons_self))
  unfold timedBody
  dsimp only
  split
  · next first next others hfound =>
      obtain ⟨rfl, hothers⟩ := List.cons_eq_cons.1 (hfound.symm.trans hchildren)
      simp only [hkind, if_true, wrapperLeading_plain hwrappers, hinner.leading_eq, hcontrol,
        List.append_nil, hothers, List.getLast_concat]
  · next hnone =>
      cases middle with
      | nil => exact absurd hchildren (hnone control timed [])
      | cons next rest => exact absurd hchildren (hnone control next (rest ++ [timed]))

/-- A statement without a timing of its own is a body. -/
theorem timedBody_of_not_timing {statement : Node}
    (h : statement.unwrap.inner.kind? ≠ some .proceduralTimingControlStatement) (level : Int) :
    timedBody format statement level [] = (do
      let result ← body format statement level []
      pure result.1) := by
  unfold timedBody
  dsimp only
  split
  · rw [if_neg h]
  · rfl

/-- A timing without a statement is a body. -/
theorem timedBody_of_few {statement : Node}
    (h : statement.unwrap.inner.children.length < 2) (level : Int) :
    timedBody format statement level [] = (do
      let result ← body format statement level []
      pure result.1) := by
  unfold timedBody
  dsimp only
  split
  · next first next others hfound =>
      rw [hfound, List.length_cons, List.length_cons] at h
      omega
  · rfl

/-- A block whose first and last words are dropped. -/
theorem seqBlock_of_collapsible {node first statement last : Node}
    (hchildren : node.children = [first, statement, last]) (h : node.isCollapsible)
    (level : Int) :
    seqBlock format node level = (do
      pure (stripIndent (← format statement level none) level)) := by
  unfold seqBlock
  simp only [hchildren, h, if_true]

/-- A block that keeps its first and last words. -/
theorem seqBlock_of_not_collapsible {node : Node} (h : node.isCollapsible = false) (level : Int) :
    seqBlock format node level = block format node level [] [] := by
  unfold seqBlock
  split
  · simp only [h, Bool.false_eq_true, if_false]
  · rfl

/-- A plain assignment is its text with the terminator. -/
theorem assignment_plain {node : Node} (h : node.Plain) (level : Int) {terminator : Option Node}
    (hterminator : ∀ token ∈ terminator, token.Plain) :
    assignment node level terminator = pure (node.text ++ terminatorText terminator) := by
  have hall : AllPlain (node :: terminator.toList) :=
    allWithin_cons.2 ⟨h, allWithin_toList.2 hterminator⟩
  unfold assignment
  rw [endOfLine_plain hall, pure_bind, List.append_nil]

/-- A procedural assignment writes its terminator itself. -/
theorem phrase_of_isSimpleAssignment (columns : Columns) {inner : Node} (h : inner.Plain)
    (hkind : inner.is Kind.isSimpleAssignment) (level : Int) {terminator : Option Node}
    (hterminator : ∀ token ∈ terminator, token.Plain) :
    phrase columns format inner level terminator =
      pure (inner.text ++ terminatorText terminator) := by
  rw [is, Option.any_eq_true] at hkind
  obtain ⟨kind, hkind, hassignment⟩ := hkind
  rw [← assignment_plain h level hterminator, phrase, hkind]
  cases kind <;> first | rfl | cases hassignment

/-- An assignment has written its terminator already. -/
theorem terminated_of_isSimpleAssignment {inner : Node} (hkind : inner.is Kind.isSimpleAssignment)
    (level : Int) (terminator : Option Node) (body : Text) :
    terminated inner level terminator body = body := by
  rw [is, Option.any_eq_true] at hkind
  obtain ⟨kind, hkind, hassignment⟩ := hkind
  unfold terminated
  split
  · rw [if_pos]
    rw [hkind, Option.any_some]
    cases kind <;> first | rfl | cases hassignment
  · rfl

/-! ## Conditions and choices -/

/-- A fuel that bounds the height of a condition bounds the length of its chain. -/
theorem conditional_fuel {fuel fuel' : Nat} {node : Node} (h : node.height ≤ fuel)
    (h' : node.height ≤ fuel') (level : Int) (extra : List Comment) :
    conditional format fuel node level extra = conditional format fuel' node level extra := by
  induction fuel generalizing fuel' node extra with
  | zero => exact absurd (height_pos node) (by omega)
  | succ fuel ih =>
      obtain ⟨fuel', rfl⟩ : ∃ n, fuel' = n + 1 := ⟨fuel' - 1, by have := height_pos node; omega⟩
      rw [conditional, conditional]
      split
      · next keyword others branches hnode hbranches =>
          refine bind_congr fun result => ?_
          obtain ⟨text, isBlock⟩ := result
          dsimp only
          split
          · rfl
          · next token branch hsecond =>
              obtain ⟨-, -, hmem⟩ := Branches.subset hbranches
              have hbranch := height_lt_of_mem (hmem _ hsecond).2
              have hinner := height_unwrap_le branch
              dsimp only at hbranch
              have hle : branch.unwrap.inner.height ≤ fuel' := by omega
              rw [ih (by omega) hle]
      · rfl

/-- The second branch of a plain condition, behind its `else`. -/
def elseBranch (fuel : Nat) (branch : Node) (level : Int) : Render Text := do
  if branch.unwrap.inner.is Kind.isConditional then
    let rest ← conditional format fuel branch.unwrap.inner level []
    pure (" " ++ rest)
  else
    let result ← body format branch level []
    pure result.1

/-- A plain conditional is its header and its first branch, and behind a keyword the other branch.
-/
theorem conditional_plain (fuel : Nat) {node : Node} (h : node.Plain) {keyword : Node}
    {others : List Node} (hnode : node.children = keyword :: others) {branches : Branches}
    (hbranches : Branches.ofChildren? node.children = some branches) (level : Int) :
    conditional format (fuel + 1) node level [] = (do
      let result ← body format branches.first level []
      let text := header keyword.text branches.condition ++ result.1
      match branches.second with
      | none => pure text
      | some (_, branch) =>
          let rest ← elseBranch format fuel branch level
          pure (beforeElse text result.2 level ++ rest)) := by
  have hchildren : AllPlain node.children := Within.children h
  obtain ⟨hhead, -, hsecond⟩ := Branches.subset hbranches
  have hcomments : commentsAll branches.head = [] :=
    AllPlain.commentsAll_eq (hchildren.subset hhead)
  rw [hnode] at hbranches
  rw [conditional]
  simp only [hnode, hbranches, hcomments, List.append_nil]
  congr 1
  funext result
  obtain ⟨text, isBlock⟩ := result
  dsimp only
  cases hbranch? : branches.second with
  | none => rfl
  | some second =>
      obtain ⟨token, branch⟩ := second
      obtain ⟨htoken, hbranch⟩ := hsecond _ hbranch?
      dsimp only at htoken hbranch ⊢
      obtain ⟨hphrase, -, hwrappers⟩ := within_unwrap (hchildren branch hbranch)
      have hnested : branch.unwrap.inner.Plain := hphrase
      -- The wrappers of the branch have no comments, so nothing keeps an else-if off the line of
      -- its else.
      have hbare : branch.unwrap.wrappers.all isBare = true := by
        refine List.all_eq_true.2 fun wrapper hwrapper => ?_
        have hplain : wrapper.Plain := hwrappers wrapper hwrapper
        simp [isBare, hplain.leading_eq, hplain.trailing_eq]
      rw [plain_iff.1 (hchildren token htoken), hnested.leading_eq]
      unfold elseBranch
      simp only [hbare, Bool.and_true, List.append_nil]
      split
      · simp only [bind_assoc, pure_bind, List.append_assoc]
      · simp only [bind_assoc, pure_bind]

/-- A conditional without branches is written as its text. -/
theorem conditional_of_no_branches (fuel : Nat) {node : Node} (h : node.Plain)
    (hbranches : Branches.ofChildren? node.children = none) (level : Int) :
    conditional format (fuel + 1) node level [] = pure node.text := by
  rw [conditional, hbranches]
  cases node.children with
  | nil => exact woven_plain h
  | cons keyword others => exact woven_plain h

/-- The closing keyword of a choice. -/
def caseEnd (children : List Node) : Option Node :=
  children.getLast?.filter fun last => last.isToken && Text.startsWith last.lexeme "endcase"

/-- The items of a choice behind its header, which has `size` children. -/
def caseItems (children : List Node) (size : Nat) : List Node :=
  if (caseEnd children).isSome then (children.drop size).dropLast else children.drop size

/-- A plain case statement is its header, its items and the line that ends it. -/
theorem caseStatement_plain {node : Node} (h : node.Plain) {keyword : Node} {others : List Node}
    (hnode : node.children = keyword :: others) {opening closing : Nat}
    (hparens : parens? node.children = some (opening, closing)) (level : Int) :
    caseStatement format node level = (do
      let lines ← items format (level + 1) (caseItems node.children (closing + 1))
      pure (header keyword.text (between node.children (opening + 1) closing) ++ "\n" ++ lines ++
        (indentFor level ++ ((caseEnd node.children).map lexeme).getD "endcase" ++ "\n"))) := by
  have hchildren : AllPlain node.children := Within.children h
  have hclose : ∀ last ∈ caseEnd node.children, last.Plain := by
    intro last hlast
    obtain ⟨hlast, -⟩ := Option.filter_eq_some_iff.1 hlast
    exact hchildren last (List.mem_of_getLast? hlast)
  unfold caseEnd at hclose
  unfold caseStatement
  dsimp only
  split
  · next found rest opening' closing' hfound hplaces =>
      obtain ⟨rfl, -⟩ := List.cons_eq_cons.1 (hfound.symm.trans hnode)
      obtain ⟨rfl, rfl⟩ := Prod.mk.inj (Option.some.inj (hplaces.symm.trans hparens))
      rw [endOfLine_plain (hchildren.subset (List.take_subset _ _)), pure_bind,
        closingLine_plain hclose]
      simp only [pure_bind, List.append_nil]
      rfl
  · next hnone => exact absurd hparens (hnone keyword others opening closing hnode)

/-- A case statement without brackets is written as its text. -/
theorem caseStatement_of_no_parens {node : Node} (h : node.Plain)
    (hparens : parens? node.children = none) (level : Int) :
    caseStatement format node level = pure node.text := by
  unfold caseStatement
  dsimp only
  rw [hparens]
  cases node.children with
  | nil => exact woven_plain h
  | cons keyword others => exact woven_plain h

/-- The labels of an item of a choice. -/
def caseLabels (children : List Node) : List Node :=
  match indexOf? ":" children with
  | some colon => children.take colon
  | none => children.dropLast

/-- The labels of an item of a choice, as they are written. -/
def caseLabelText (children : List Node) : Text :=
  List.intercalate ", " ((groups "," (caseLabels children)).map fun group => joinedText group.items)

/-- A plain case item is its labels and its statement, on their line if that is simple. -/
theorem caseItem_plain {node statement : Node} (h : node.Plain)
    (hlast : node.children.getLast? = some statement) (level : Int) :
    caseItem format node level = (do
      if statement.isSimple then
        pure (caseLabelText node.children ++ ": " ++ (← inlineStatement format statement level))
      else
        let result ← body format statement level []
        pure (caseLabelText node.children ++ ":" ++ result.1)) := by
  have hchildren : AllPlain node.children := Within.children h
  have hhead : commentsAll node.children.dropLast = [] :=
    AllPlain.commentsAll_eq (hchildren.subset (List.dropLast_sublist _).subset)
  have hpending : unwritten [] = pure [] := rfl
  unfold caseItem
  simp only [hlast, hhead, hpending, pure_bind, List.isEmpty_nil, Bool.and_true]
  rfl

/-! ## Loops, timing controls and constructs -/

/-- A plain loop is its header and its body. -/
theorem loop_plain {node first statement : Node} {middle : List Node} (h : node.Plain)
    (hnode : node.children = first :: (middle ++ [statement])) (level : Int) :
    loop format node level = (do
      let result ← body format statement level []
      pure (loopHeader (first :: middle) ++ result.1)) := by
  have hchildren : AllPlain node.children := Within.children h
  have hhead : commentsAll (first :: middle) = [] := by
    refine AllPlain.commentsAll_eq (hchildren.subset ?_)
    rw [hnode]
    exact List.cons_subset_cons _ (List.subset_append_left _ _)
  unfold loop
  split
  · next found second others hfound =>
      obtain ⟨rfl, hothers⟩ := List.cons_eq_cons.1 (hfound.symm.trans hnode)
      have hdrop : (found :: (middle ++ [statement])).dropLast = found :: middle := by
        rw [← List.cons_append, List.dropLast_concat]
      simp only [hothers, hdrop, hhead, List.getLast_concat]
  · next hnone =>
      cases middle with
      | nil => exact absurd hnode (hnone first statement [])
      | cons next rest => exact absurd hnode (hnone first next (rest ++ [statement]))

/-- A loop without a body is woven. -/
theorem loop_of_few {node : Node} (h : node.children.length < 2) (level : Int) :
    loop format node level = woven node := by
  unfold loop
  split
  · next first second others hfound =>
      rw [hfound, List.length_cons, List.length_cons] at h
      omega
  · rfl

/-- A timing control without a statement is woven. -/
theorem timingControl_of_few {node : Node} (h : node.children.length < 2) (level : Int) :
    timingControl format node level = woven node := by
  unfold timingControl
  split
  · next first second others hfound =>
      rw [hfound, List.length_cons, List.length_cons] at h
      omega
  · rfl

/-- A plain timing control is its timing and its statement, on the same line if that is simple. -/
theorem timingControl_plain {node control statement : Node} {middle : List Node} (h : node.Plain)
    (hnode : node.children = control :: (middle ++ [statement])) (level : Int) :
    timingControl format node level = (do
      if statement.isSimple then
        pure (control.text ++ " " ++ (← inlineStatement format statement level))
      else
        let result ← body format statement level []
        pure (control.text ++ result.1)) := by
  have hchildren : AllPlain node.children := Within.children h
  have hcontrol : control.Plain :=
    hchildren control (by rw [hnode]; exact List.mem_cons_self)
  unfold timingControl
  split
  · next found second others hfound =>
      obtain ⟨rfl, hothers⟩ := List.cons_eq_cons.1 (hfound.symm.trans hnode)
      simp only [hcontrol.trailing_eq, plain_iff.1 hcontrol, List.isEmpty_nil, Bool.and_true,
        hothers, List.getLast_concat]
  · next hnone =>
      cases middle with
      | nil => exact absurd hnode (hnone control statement [])
      | cons next rest => exact absurd hnode (hnone control next (rest ++ [statement]))

/-- A plain procedural construct is its keyword and its statement. -/
theorem procedural_plain {node keyword statement : Node} (h : node.Plain)
    (hhead : node.children.head? = some keyword) (hlast : node.children.getLast? = some statement)
    (level : Int) :
    procedural format node level = (do
      let text ← timedBody format statement level []
      pure (keyword.text ++ text)) := by
  have hkeyword : keyword.comments = [] :=
    plain_iff.1 (Within.children h keyword (List.mem_of_mem_head? hhead))
  unfold procedural
  simp only [hhead, hlast, require, pure_bind, hkeyword]

end Render
end VerilogLayout

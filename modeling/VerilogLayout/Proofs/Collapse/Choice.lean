import VerilogLayout.Proofs.Collapse.Statement

/-!
# Choices around blocks that are dropped

The branches of a condition and the items of a choice are found by their places among the children,
which stay where they are. A chain of conditions is followed in `conditional_collapse`, by induction
on the fuel of the one formatter with the fuel of the other left open.
-/

namespace VerilogLayout.Render

open Node

/-! ## Places among children -/

theorem mem_drop_of_getElem? {nodes : List Node} {node : Node} {size place : Nat}
    (h : nodes[place]? = some node) (hle : size ≤ place) : node ∈ nodes.drop size := by
  refine List.mem_of_getElem? (i := place - size) ?_
  rw [List.getElem?_drop, Nat.add_sub_cancel' hle, h]

namespace Around

variable {n n' : Nat} {inner : Node} (h : Around n n' inner)
include h

/-- What is found behind the front of a phrase is a statement. -/
theorem laid_of_getElem? {size place : Nat} (hsize : inner.frontSize? = some size)
    (hle : size ≤ place) {child : Node} (hchild : inner.children[place]? = some child) :
    Laid n n' child :=
  h.laid hsize (mem_drop_of_getElem? hchild hle)

/-- Nodes in the front of a phrase are found as they are. -/
theorem between_collapse {size : Nat} (hsize : inner.frontSize? = some size) {start stop : Nat}
    (hstop : stop ≤ size) :
    between inner.collapse.children start stop = between inner.children start stop := by
  rw [h.children_collapse, between, between, ← List.map_take, h.map_take hsize hstop]

/-- Collapsing keeps the keyword in front. -/
theorem head_collapse {size : Nat} (hsize : inner.frontSize? = some (size + 1)) {keyword : Node}
    {others : List Node} (hchildren : inner.children = keyword :: others) :
    inner.collapse.children = keyword :: others.map collapse := by
  have hkeyword : keyword.collapse = keyword :=
    h.framed.front _ hsize keyword (by rw [hchildren]; exact List.mem_cons_self)
  rw [h.children_collapse, hchildren, List.map_cons, hkeyword]

end Around

variable {format format' : Formatter} {n n' : Nat} (hagree : Agrees format format' n n')

/-! ## Conditions -/

/-- The branches of a condition without the blocks that are dropped. -/
def Branches.collapse (branches : Branches) : Branches where
  head := branches.head.map Node.collapse
  condition := branches.condition.map Node.collapse
  first := branches.first.collapse
  second := branches.second.map fun (keyword, branch) => (keyword.collapse, branch.collapse)

/-- Collapsed children have collapsed branches. -/
theorem Branches.ofChildren?_collapse (children : List Node) :
    Branches.ofChildren? (children.map Node.collapse) =
      (Branches.ofChildren? children).map Branches.collapse := by
  unfold Branches.ofChildren?
  rw [parens?_collapse]
  cases parens? children with
  | none => rfl
  | some places =>
      obtain ⟨opening, closing⟩ := places
      simp only [Option.bind_eq_bind, Option.bind_some, List.getElem?_map, indexOf?_collapse]
      cases children[closing + 1]? with
      | none => rfl
      | some first =>
          have hsecond : ((indexOf? "else" children (closing + 2)).bind fun place =>
              (children[place]?.map Node.collapse).bind fun keyword =>
                (children[place + 1]?.map Node.collapse).bind fun branch =>
                  some (keyword, branch)) =
              ((indexOf? "else" children (closing + 2)).bind fun place =>
                children[place]?.bind fun keyword => children[place + 1]?.bind fun branch =>
                  some (keyword, branch)).map
                fun (keyword, branch) => (keyword.collapse, branch.collapse) := by
            cases indexOf? "else" children (closing + 2) with
            | none => rfl
            | some place =>
                simp only [Option.bind_some]
                cases children[place]? <;> cases children[place + 1]? <;> rfl
          rw [Option.map_some, Option.bind_some, Option.bind_some, hsecond, Option.map_some,
            Branches.collapse, between, between, List.map_drop, List.map_take, List.map_take]

/-- Where the branches of a condition stand. -/
theorem Branches.places {children : List Node} {branches : Branches}
    (h : Branches.ofChildren? children = some branches) :
    ∃ opening closing, parens? children = some (opening, closing) ∧
      branches.condition = between children (opening + 1) closing ∧
      children[closing + 1]? = some branches.first ∧
      ∀ keyword branch, branches.second = some (keyword, branch) →
        ∃ place, closing + 1 ≤ place ∧ children[place]? = some branch := by
  unfold Branches.ofChildren? at h
  simp only [Option.bind_eq_bind, Option.bind_eq_some_iff, Option.some.injEq, Prod.exists] at h
  obtain ⟨opening, closing, hparens, first, hfirst, rfl⟩ := h
  refine ⟨opening, closing, hparens, rfl, hfirst, fun keyword branch hsecond => ?_⟩
  simp only [Option.bind_eq_some_iff, Option.some.injEq, Prod.mk.injEq] at hsecond
  obtain ⟨place, hplace, keyword', -, branch', hbranch, rfl, rfl⟩ := hsecond
  rw [indexOf?, Option.map_eq_some_iff] at hplace
  obtain ⟨offset, -, rfl⟩ := hplace
  exact ⟨closing + 2 + offset + 1, by omega, hbranch⟩

/-- The front of a conditional ends with its closing bracket. -/
theorem frontSize_of_isConditional {inner : Node} (h : inner.is Kind.isConditional) :
    inner.frontSize? = (parens? inner.children).map (·.2 + 1) := by
  rw [is, Option.any_eq_true] at h
  obtain ⟨kind, hkind, hconditional⟩ := h
  rw [frontSize?, hkind]
  cases kind <;> first | rfl | cases hconditional

/-- A condition without branches has no statement to lay out. -/
theorem collapse_eq_of_no_branches {inner : Node} (h : Around n n' inner)
    (hconditional : inner.is Kind.isConditional)
    (hbranches : Branches.ofChildren? inner.children = none) : inner.collapse = inner := by
  have hsize := frontSize_of_isConditional hconditional
  cases hparens : parens? inner.children with
  | none => exact h.framed.fixed (by rw [hsize, hparens]; rfl)
  | some places =>
      obtain ⟨opening, closing⟩ := places
      rw [hparens, Option.map_some] at hsize
      refine h.collapse_eq hsize ?_
      cases hfirst : inner.children[closing + 1]? with
      | none => exact List.drop_eq_nil_of_le (List.getElem?_eq_none_iff.1 hfirst)
      | some first =>
          simp [Branches.ofChildren?, hparens, hfirst] at hbranches

include hagree

/-- The second branch of a condition, which may continue the chain. -/
theorem elseBranch_collapse {fuel fuel' : Nat} {branch : Node} (h : Laid n n' branch)
    (hchain : ∀ inner, Around n n' inner → inner.is Kind.isConditional →
      inner.height ≤ branch.height → inner.collapse.height ≤ branch.collapse.height → ∀ level,
        conditional format fuel inner level [] = conditional format' fuel' inner.collapse level [])
    (level : Int) :
    elseBranch format fuel branch level = elseBranch format' fuel' branch.collapse level := by
  have hsame : branch.collapse.unwrap.inner.is Kind.isConditional = _ :=
    h.settled.is_unwrap_collapse rfl rfl
  rw [elseBranch, elseBranch, hsame]
  split
  · next hconditional =>
      rcases h.settled.unwrap with ⟨-, hdrop⟩ | hstay
      · rw [hdrop.is_before] at hconditional
        cases hconditional
      · have hle := height_unwrap_le branch.collapse
        rw [hstay.inner_eq] at hle
        rw [hchain _ (h.around hstay) hconditional (height_unwrap_le branch) hle, hstay.inner_eq]
  · rw [body_collapse hagree h]

/-- A condition writes the same whether the blocks in its branches are dropped or not. -/
theorem conditional_collapse {fuel fuel' : Nat} {inner : Node} (h : Around n n' inner)
    (hconditional : inner.is Kind.isConditional) (hfuel : inner.height ≤ fuel)
    (hfuel' : inner.collapse.height ≤ fuel') (level : Int) :
    conditional format fuel inner level [] = conditional format' fuel' inner.collapse level [] := by
  -- The branch behind the else may be a conditional of its own, so the induction is on the fuel; it
  -- is used for that branch only.
  induction fuel generalizing fuel' inner level with
  | zero => exact absurd (height_pos inner) (by omega)
  | succ fuel ih =>
      obtain ⟨fuel', rfl⟩ : ∃ n, fuel' = n + 1 :=
        ⟨fuel' - 1, by have := height_pos inner.collapse; omega⟩
      cases hbranches : Branches.ofChildren? inner.children with
      | none =>
          rw [collapse_eq_of_no_branches h hconditional hbranches,
            conditional_of_no_branches format fuel h.plain hbranches,
            conditional_of_no_branches format' fuel' h.plain hbranches]
      | some branches =>
          obtain ⟨opening, closing, hparens, hcondition, hfirst, hsecond⟩ :=
            Branches.places hbranches
          have hsize : inner.frontSize? = some (closing + 1) := by
            rw [frontSize_of_isConditional hconditional, hparens]
            rfl
          obtain ⟨keyword, others, hchildren⟩ : ∃ keyword others,
              inner.children = keyword :: others := by
            cases hchildren : inner.children with
            | nil => simp [hchildren] at hfirst
            | cons keyword others => exact ⟨keyword, others, rfl⟩
          have hbranches' : Branches.ofChildren? inner.collapse.children =
              some branches.collapse := by
            rw [h.children_collapse, Branches.ofChildren?_collapse, hbranches, Option.map_some]
          have hcondition' : branches.collapse.condition = branches.condition := by
            show branches.condition.map Node.collapse = branches.condition
            rw [hcondition, between, List.map_drop, h.map_take hsize (Nat.le_succ closing)]
          have hbody := body_collapse hagree (h.laid_of_getElem? hsize (Nat.le_refl _) hfirst)
          rw [conditional_plain format fuel h.plain hchildren hbranches,
            conditional_plain format' fuel' h.plain_collapse (h.head_collapse hsize hchildren)
              hbranches', hcondition', hbody]
          refine bind_congr fun result => ?_
          have hbranch : branches.collapse.second = branches.second.map _ := rfl
          rw [hbranch]
          cases halternative : branches.second with
          | none => rfl
          | some alternative =>
              obtain ⟨token, branch⟩ := alternative
              obtain ⟨place, hle, hplace⟩ := hsecond token branch halternative
              have hmem := List.mem_of_getElem? hplace
              have hmem' : branch.collapse ∈ inner.collapse.children := by
                rw [h.children_collapse]
                exact List.mem_map_of_mem hmem
              have hlt := height_lt_of_mem hmem
              have hlt' := height_lt_of_mem hmem'
              have helse : elseBranch format fuel branch level =
                  elseBranch format' fuel' branch.collapse level :=
                elseBranch_collapse hagree (h.laid_of_getElem? hsize hle hplace)
                  (fun nested hnested hkind hheight hheight' =>
                    ih hnested hkind (by omega) (by omega)) level
              dsimp only [Option.map_some]
              rw [helse]

/-! ## Choices -/

omit hagree in
/-- Collapsing keeps the last keyword of a case statement. -/
theorem caseEnd_collapse (children : List Node) :
    caseEnd (children.map collapse) = caseEnd children := by
  rw [caseEnd, caseEnd, List.getLast?_map]
  cases children.getLast? with
  | none => rfl
  | some last =>
      cases htoken : last.isToken with
      | true => rw [Option.map_some, collapse_of_isToken htoken]
      | false => simp [Option.filter, isToken_collapse, htoken]

omit hagree in
/-- The items of a case statement are collapsed one by one. -/
theorem caseItems_collapse (children : List Node) (size : Nat) :
    caseItems (children.map collapse) size = (caseItems children size).map collapse := by
  rw [caseItems, caseItems, caseEnd_collapse]
  split
  · rw [List.map_dropLast, List.map_drop]
  · rw [List.map_drop]

omit hagree in
/-- The items of a case statement stand behind its front. -/
theorem caseItems_subset_drop (children : List Node) (size : Nat) :
    caseItems children size ⊆ children.drop size := by
  unfold caseItems
  split
  · exact (List.dropLast_sublist _).subset
  · exact List.Subset.refl _

/-- A choice writes the same whether the blocks in its items are dropped or not. -/
theorem caseStatement_collapse {inner : Node} (h : Around n n' inner)
    (hkind : inner.kind? = some .caseStatement) (level : Int) :
    caseStatement format inner level = caseStatement format' inner.collapse level := by
  have hfront : inner.frontSize? = (parens? inner.children).map (·.2 + 1) := by
    rw [frontSize?, hkind]
  cases hparens : parens? inner.children with
  | none =>
      rw [h.framed.fixed (by rw [hfront, hparens]; rfl),
        caseStatement_of_no_parens format h.plain hparens,
        caseStatement_of_no_parens format' h.plain hparens]
  | some places =>
      obtain ⟨opening, closing⟩ := places
      have hsize : inner.frontSize? = some (closing + 1) := by
        rw [hfront, hparens]
        rfl
      cases hchildren : inner.children with
      | nil => simp [hchildren, parens?, indexOf?] at hparens
      | cons keyword others =>
          have hparens' : parens? inner.collapse.children = some (opening, closing) := by
            rw [h.children_collapse, parens?_collapse, hparens]
          have hitems : ∀ item ∈ caseItems inner.children (closing + 1), Laid n n' item :=
            fun item hitem => h.laid hsize (caseItems_subset_drop _ _ hitem)
          rw [caseStatement_plain format h.plain hchildren hparens,
            caseStatement_plain format' h.plain_collapse (h.head_collapse hsize hchildren)
              hparens',
            h.between_collapse hsize (Nat.le_succ closing), h.children_collapse,
            caseItems_collapse, caseEnd_collapse, items_collapse hagree hitems]

omit hagree in
/-- The labels of an item stand in front of its statement. -/
theorem caseLabels_eq_take (children : List Node) :
    ∃ place ≤ children.length - 1, caseLabels children = children.take place ∧
      caseLabels (children.map collapse) = (children.map collapse).take place := by
  rw [caseLabels, caseLabels, indexOf?_collapse]
  cases hcolon : indexOf? ":" children with
  | none =>
      refine ⟨children.length - 1, Nat.le_refl _, List.dropLast_eq_take, ?_⟩
      rw [List.dropLast_eq_take, List.length_map]
  | some colon =>
      rw [indexOf?, Option.map_eq_some_iff] at hcolon
      obtain ⟨place, hplace, rfl⟩ := hcolon
      obtain ⟨hlt, -⟩ := List.findIdx?_eq_some_iff_getElem.1 hplace
      rw [List.drop_zero] at hlt
      exact ⟨0 + place, by omega, rfl, rfl⟩

/-- An item of a choice writes the same whether a block in it is dropped or not. -/
theorem caseItem_collapse {inner : Node} (h : Around n n' inner)
    (hkind : inner.kind? = some .caseItem) (level : Int) :
    caseItem format inner level = caseItem format' inner.collapse level := by
  have hsize : inner.frontSize? = some (inner.children.length - 1) := by
    rw [frontSize?, hkind]
  rcases List.eq_nil_or_concat inner.children with hchildren | ⟨front, statement, hchildren⟩
  · have hchildren' : inner.collapse.children = [] := by
      rw [h.children_collapse, hchildren, List.map_nil]
    rw [caseItem, caseItem, hchildren, hchildren']
    rfl
  · rw [List.concat_eq_append] at hchildren
    have hstatement := h.laid_last hchildren hsize
    have hlast : inner.children.getLast? = some statement := by
      rw [hchildren, List.getLast?_concat]
    have hlast' : inner.collapse.children.getLast? = some statement.collapse := by
      rw [h.children_collapse, List.getLast?_map, hlast, Option.map_some]
    have hlabels : caseLabelText inner.collapse.children = caseLabelText inner.children := by
      obtain ⟨place, hplace, hlabels, hlabels'⟩ := caseLabels_eq_take inner.children
      rw [caseLabelText, caseLabelText, h.children_collapse, hlabels, hlabels', ← List.map_take,
        h.map_take hsize hplace]
    rw [caseItem_plain format h.plain hlast, caseItem_plain format' h.plain_collapse hlast',
      hlabels, hstatement.settled.isSimple_collapse, body_collapse hagree hstatement,
      inlineStatement_collapse hagree hstatement]

/-! ## Blocks in their places -/

/-- A block that keeps its first and last words. -/
theorem seqBlock_collapse {inner : Node} (h : Around n n' inner)
    (hkind : inner.kind? = some .seqBlock) (level : Int) :
    seqBlock format inner level = seqBlock format' inner.collapse level := by
  rw [seqBlock_of_not_collapsible format h.framed.not_isCollapsible,
    seqBlock_of_not_collapsible format' h.framed.not_isCollapsible_collapse]
  refine block_collapse hagree h ?_ level
  rw [frontSize?, hkind]

/-- A generate block writes the same whether the blocks in it are dropped or not. -/
theorem generateBlock_collapse {inner : Node} (h : Around n n' inner)
    (hkind : inner.kind? = some .generateBlock) (level : Int) :
    generateBlock format inner level = generateBlock format' inner.collapse level := by
  rw [generateBlock, generateBlock, opensBlock_collapse h.framed.not_isCollapsible]
  split
  · next hopens => exact block_collapse hagree h (frontSize_of_opensBlock hopens) level
  · next hopens =>
      have hsize : inner.frontSize? = some 0 := by
        rw [frontSize?, hkind]
        exact congrArg some (if_neg hopens)
      have hchildren : ∀ child ∈ inner.children, Laid n n' child :=
        fun child hchild => h.laid hsize hchild
      rw [h.children_collapse, items_collapse hagree hchildren]

end VerilogLayout.Render

import VerilogLayout.Proofs.Procedural.Grammar

/-!
# How renderers take statements apart

Renderers find the parts of a statement by the tokens between them. For the shapes of procedural
code these are the parts that the grammar names: `parens?_header`, `closingParen?_balanced`,
`indexOf?_append` and `splitBlock_eq` say so for each way of looking.
-/

namespace VerilogLayout

namespace Node

/-! ## Parentheses -/

/-- The parentheses around a phrase behind a keyword. -/
theorem parens?_header {keyword opening e closing : Node} {others : List Node}
    (hkeyword : keyword.isLexeme "(" = false) (hopening : opening.isLexeme "(")
    (he : e.isToken = false) (hclosing : closing.isLexeme ")") :
    parens? (keyword :: opening :: e :: closing :: others) = some (1, 3) := by
  have hclosing' : closing.isLexeme "(" = false := isLexeme_ne hclosing (by decide)
  simp [parens?, indexOf?, closingParen?, List.findIdx?_cons, hkeyword, hopening, hclosing,
    hclosing', isLexeme_of_not_isToken he, -String.reduceToList]

/-- Balanced parentheses do not close what is open in front of them. -/
theorem closingParen?_balanced {nodes : List Node} (h : Balanced nodes) (depth : Nat)
    (rest : List Node) :
    closingParen? (depth + 1) (nodes ++ rest) =
      (closingParen? (depth + 1) rest).map (· + nodes.length) := by
  induction h generalizing depth rest with
  | nil => simp
  | cons hopening hclosing _ ih =>
      simp only [List.cons_append, closingParen?, hopening, hclosing, ih, Bool.false_eq_true,
        if_false, Option.map_map, List.length_cons]
      rfl
  | @parens opening inside closing nodes hopening hclosing _ _ ihinside ihnodes =>
      have hclosing' : closing.isLexeme "(" = false := isLexeme_ne hclosing (by decide)
      simp only [List.cons_append, List.append_assoc, closingParen?, hopening, ihinside, hclosing,
        hclosing', if_true, Bool.false_eq_true, if_false]
      rw [if_neg (by omega), Nat.add_sub_cancel, ihnodes]
      simp only [Option.map_map, List.length_cons, List.length_append]
      congr 1
      funext n
      simp only [Function.comp_apply]
      omega

theorem Balanced.append {nodes others : List Node} (h : Balanced nodes)
    (hothers : Balanced others) : Balanced (nodes ++ others) := by
  induction h with
  | nil => exact hothers
  | cons hopening hclosing _ ih => exact .cons hopening hclosing ih
  | parens hopening hclosing hinside _ _ ih =>
      rw [List.cons_append, List.append_assoc]
      exact .parens hopening hclosing hinside ih

/-- The parentheses around balanced nodes behind a keyword. -/
theorem parens?_balanced {keyword opening closing : Node} {inside others : List Node}
    (hkeyword : keyword.isLexeme "(" = false) (hopening : opening.isLexeme "(")
    (hinside : Balanced inside) (hclosing : closing.isLexeme ")") :
    parens? (keyword :: opening :: (inside ++ closing :: others)) =
      some (1, inside.length + 2) := by
  have hclosing' : closing.isLexeme "(" = false := isLexeme_ne hclosing (by decide)
  have hend : closingParen? 1 (inside ++ closing :: others) = some inside.length := by
    rw [closingParen?_balanced hinside 0, closingParen?]
    simp [hclosing, hclosing', -String.reduceToList]
  simp [parens?, indexOf?, closingParen?, List.findIdx?_cons, hkeyword, hopening, hend,
    -String.reduceToList]
  omega

/-- The clauses of a `for` loop are balanced, their semicolons are written as such, and none stands
at the end. -/
theorem forClauses {start condition step : List Node} {semicolon semicolon' : Node}
    (hstart : IsClause start) (hsemicolon : IsWritten ";" semicolon)
    (hcondition : IsClause condition) (hsemicolon' : IsWritten ";" semicolon')
    (hstep : IsClause step) :
    Balanced (start ++ semicolon :: (condition ++ semicolon' :: step)) ∧
      (∀ node ∈ start ++ semicolon :: (condition ++ semicolon' :: step),
        node.isLexeme ";" → IsWritten ";" node) ∧
      ∀ node ∈ (start ++ semicolon :: (condition ++ semicolon' :: step)).getLast?,
        node.isLexeme ";" = false := by
  have hbalanced : ∀ {node nodes}, IsWritten ";" node → Balanced nodes → Balanced (node :: nodes) :=
    fun hwritten => .cons (isLexeme_ne hwritten.1 (by decide)) (isLexeme_ne hwritten.1 (by decide))
  refine ⟨?_, ?_, ?_⟩
  · exact hstart.balanced.append (hbalanced hsemicolon
      (hcondition.balanced.append (hbalanced hsemicolon' hstep.balanced)))
  -- The clauses hold no semicolon of their own, so the only ones are the two between them.
  · have hnone : ∀ {nodes node}, IsClause nodes → node ∈ nodes → node.isLexeme ";" →
        IsWritten ";" node :=
      fun hclause hmem hfound => absurd hfound (Bool.eq_false_iff.1 (hclause.no_semicolon _ hmem))
    intro node hmem hfound
    simp only [List.mem_append, List.mem_cons] at hmem
    rcases hmem with hmem | rfl | hmem | rfl | hmem
    · exact hnone hstart hmem hfound
    · exact hsemicolon
    · exact hnone hcondition hmem hfound
    · exact hsemicolon'
    · exact hnone hstep hmem hfound
  · intro node hlast
    obtain ⟨last, hstepLast⟩ : ∃ last, step.getLast? = some last :=
      ⟨step.getLast hstep.ne_nil, List.getLast?_eq_some_getLast hstep.ne_nil⟩
    have hall : (start ++ semicolon :: (condition ++ semicolon' :: step)).getLast? = some last := by
      simp [List.getLast?_append, List.getLast?_cons, hstepLast]
    obtain rfl := Option.some.inj (hall.symm.trans hlast)
    exact hstep.no_semicolon _ (List.mem_of_getLast? hstepLast)

/-! ## Groups -/

/-- Nodes make one group at least. -/
theorem groups_ne_nil (lexeme : Text) {nodes : List Node} (h : nodes ≠ []) :
    groups lexeme nodes ≠ [] := by
  cases nodes with
  | nil => exact absurd rfl h
  | cons node rest =>
      unfold groups
      split
      · simp
      · split <;> simp

/-! ## Searching -/

/-- The first token of its kind behind other nodes. -/
theorem indexOf?_append {lexeme : Text} {nodes : List Node} {found : Node} {rest : List Node}
    (h : ∀ node ∈ nodes, node.isLexeme lexeme = false) (hfound : found.isLexeme lexeme) :
    indexOf? lexeme (nodes ++ found :: rest) = some nodes.length := by
  have hfind : (nodes ++ found :: rest).findIdx? (isLexeme lexeme) = some nodes.length := by
    induction nodes with
    | nil => simp [List.findIdx?_cons, hfound]
    | cons node others ih =>
        obtain ⟨hnode, hothers⟩ := List.forall_mem_cons.1 h
        rw [List.cons_append, List.findIdx?_cons, hnode, ih hothers]
        rfl
  simp [indexOf?, hfind]

end Node

namespace Render

open Node

/-! ## Blocks -/

/-- The nodes between the keywords of a block. -/
theorem splitBlock_eq {first last : Node} {inside : List Node} (hlast : last.isLexeme "end") :
    splitBlock (first :: (inside ++ [last])) = (inside, some last) := by
  simp [splitBlock, hlast, -String.reduceToList]

/-- A block is split behind its label. -/
theorem splitLabel_append {label statements : List Node} (hlabel : IsBlockLabel label)
    (hstatements : ∀ statement ∈ statements, statement.isLexeme ":" = false) :
    splitLabel (label ++ statements) = (label, statements) := by
  cases hlabel with
  | none =>
      cases statements with
      | nil => rfl
      | cons statement rest =>
          simp [splitLabel, hstatements statement List.mem_cons_self, -String.reduceToList]
  | some hcolon => simp [splitLabel, hcolon.1, -String.reduceToList]

/-- The items of a choice between its header and its closing keyword. -/
theorem caseItems_eq (front items : List Node) {last : Node} (hlast : last.isLexeme "endcase") :
    caseItems (front ++ (items ++ [last])) front.length = items ∧
      caseEnd (front ++ (items ++ [last])) = some last := by
  have hend : caseEnd (front ++ (items ++ [last])) = some last := by
    rw [isLexeme, Bool.and_eq_true] at hlast
    have hlexeme : last.lexeme = ("endcase" : Text) := eq_of_beq hlast.2
    have hstarts : Text.startsWith "endcase" "endcase" = true := by decide
    rw [caseEnd, ← List.append_assoc, List.getLast?_concat, Option.filter_some, hlexeme, hlast.1,
      hstarts]
    rfl
  refine ⟨?_, hend⟩
  rw [caseItems, hend, Option.isSome_some, if_pos rfl, List.drop_left, List.dropLast_concat]

end Render
end VerilogLayout

import VerilogLayout.Proofs.Plain.Statement
import VerilogLayout.Proofs.Procedural.Ink

/-!
# Procedural code

`Procedural node kept` says that a node is a statement of procedural code and that `kept` are the
leaves of it that a layout keeps: all of them but the `begin` and `end` of blocks that can be
dropped. Conditions, timing controls, labels and the sides of assignments are any phrases. Read
`Procedural.terminator_eq_none` first: only an assignment takes a semicolon from its wrappers.
-/

namespace VerilogLayout

namespace Node

/-- A token that is written `lexeme`, also by its name if the name fixes how it is written. -/
def IsWritten (lexeme : Text) (node : Node) : Prop :=
  node.isLexeme lexeme ∧ ∀ text, Lexeme.byName? node.name = some text → text = lexeme

/-- A wrapper of statements. -/
def IsStatementWrapper (node : Node) : Prop :=
  node.kind? = some .statement ∨ node.kind? = some .statementOrNull ∨
    node.kind? = some .functionStatement

/-- Every parenthesis among the nodes that is opened is closed. -/
inductive Balanced : List Node → Prop where
  | nil : Balanced []
  | cons {node nodes} : node.isLexeme "(" = false → node.isLexeme ")" = false →
      Balanced nodes → Balanced (node :: nodes)
  | parens {opening inside closing nodes} : opening.isLexeme "(" → closing.isLexeme ")" →
      Balanced inside → Balanced nodes → Balanced (opening :: (inside ++ closing :: nodes))

/-- A clause in the header of a `for` loop. -/
structure IsClause (nodes : List Node) : Prop where
  ne_nil : nodes ≠ []
  balanced : Balanced nodes
  no_semicolon : ∀ node ∈ nodes, node.isLexeme ";" = false

/-- The labels of an item of a choice, with commas between them. -/
structure AreLabels (nodes : List Node) : Prop where
  no_colon : ∀ node ∈ nodes, node.isLexeme ":" = false
  commas : ∀ node ∈ nodes, node.isLexeme "," → IsWritten "," node
  last : ∀ node ∈ nodes.getLast?, node.isLexeme "," = false

/-- The label of a block behind its `begin`, which need not be there. -/
inductive IsBlockLabel : List Node → Prop where
  | none : IsBlockLabel []
  | some {colon name} : IsWritten ":" colon → IsBlockLabel [colon, name]

/-- `Assigned node ended kept` says that a node is a procedural assignment in wrappers, one of which
has a semicolon if `ended` holds, and has the leaves `kept`. -/
inductive Assigned : Node → Bool → List Node → Prop where
  | phrase {node} : node.is Kind.isSimpleAssignment → node.isToken = false →
      Assigned node false node.leaves
  | wrapper {node inner ended kept} : node.IsStatementWrapper → node.children = [inner] →
      Assigned inner ended kept → Assigned node ended kept
  | ended {node inner semicolon kept} : node.IsStatementWrapper →
      node.children = [inner, semicolon] → IsWritten ";" semicolon →
      Assigned inner false kept → Assigned node true (kept ++ [semicolon])

/-- `Procedural node kept` says that a node is a statement of procedural code whose layout keeps
the leaves `kept`. -/
inductive Procedural : Node → List Node → Prop where
  | assigned {node ended kept} : Assigned node ended kept → Procedural node kept
  | null {node} : node.kind? = none → IsWritten ";" node → Procedural node [node]
  | wrapper {node inner kept} : node.IsStatementWrapper → node.children = [inner] →
      Procedural inner kept → Procedural node kept
  | dropped {node first statement last kept} : node.isCollapsible →
      node.children = [first, statement, last] → Procedural statement kept →
      Procedural node kept
  | block {node first label statements last} {kept : Node → List Node} :
      node.kind? = some .seqBlock → node.isCollapsible = false →
      node.children = first :: (label ++ statements ++ [last]) →
      IsWritten "begin" first → IsBlockLabel label → IsWritten "end" last →
      (∀ statement ∈ statements, Procedural statement (kept statement)) →
      Procedural node (first :: (leavesAll label ++ statements.flatMap kept ++ [last]))
  | condition {node keyword opening e closing statement kept} :
      node.kind? = some .conditionalStatement →
      node.children = [keyword, opening, e, closing, statement] →
      IsWritten "if" keyword → IsWritten "(" opening → e.isToken = false →
      IsWritten ")" closing → Procedural statement kept →
      Procedural node (keyword :: opening :: (e.leaves ++ closing :: kept))
  | alternative {node keyword opening e closing statement kept separator other otherKept} :
      node.kind? = some .conditionalStatement →
      node.children = [keyword, opening, e, closing, statement, separator, other] →
      IsWritten "if" keyword → IsWritten "(" opening → e.isToken = false →
      IsWritten ")" closing → IsWritten "else" separator →
      Procedural statement kept → Procedural other otherKept →
      Procedural node
        (keyword :: opening :: (e.leaves ++ closing :: (kept ++ separator :: otherKept)))
  | choice {node keyword lexeme opening e closing caseItems last} {kept : Node → List Node} :
      node.kind? = some .caseStatement →
      node.children = keyword :: opening :: e :: closing :: (caseItems ++ [last]) →
      lexeme ∈ (["case", "casex", "casez"] : List Text) → IsWritten lexeme keyword →
      IsWritten "(" opening → e.isToken = false → IsWritten ")" closing →
      IsWritten "endcase" last →
      (∀ item ∈ caseItems, Procedural item (kept item)) →
      Procedural node
        (keyword :: opening :: (e.leaves ++ closing :: (caseItems.flatMap kept ++ [last])))
  | item {node labels colon statement kept} : node.kind? = some .caseItem →
      node.children = labels ++ [colon, statement] → AreLabels labels → IsWritten ":" colon →
      Procedural statement kept →
      Procedural node (leavesAll labels ++ colon :: kept)
  | forLoop {node keyword opening start semicolon condition semicolon' step closing statement
      kept} :
      node.kind? = some .loopStatement →
      node.children = keyword :: opening :: (start ++ semicolon :: (condition ++ semicolon' ::
        (step ++ [closing, statement]))) →
      IsWritten "for" keyword → IsWritten "(" opening → IsClause start →
      IsWritten ";" semicolon → IsClause condition → IsWritten ";" semicolon' → IsClause step →
      IsWritten ")" closing → Procedural statement kept →
      Procedural node (keyword :: opening :: (leavesAll start ++ semicolon ::
        (leavesAll condition ++ semicolon' :: (leavesAll step ++ closing :: kept))))
  | whileLoop {node keyword lexeme opening e closing statement kept} :
      node.kind? = some .loopStatement →
      node.children = [keyword, opening, e, closing, statement] →
      lexeme ∈ (["while", "repeat"] : List Text) → IsWritten lexeme keyword →
      IsWritten "(" opening → e.isToken = false → IsWritten ")" closing →
      Procedural statement kept →
      Procedural node (keyword :: opening :: (e.leaves ++ closing :: kept))
  | forever {node keyword statement kept} : node.kind? = some .loopStatement →
      node.children = [keyword, statement] → IsWritten "forever" keyword →
      Procedural statement kept → Procedural node (keyword :: kept)
  | timed {node control statement kept} :
      node.kind? = some .proceduralTimingControlStatement →
      node.children = [control, statement] → control.isToken = false →
      Procedural statement kept → Procedural node (control.leaves ++ kept)
  | construct {node keyword lexeme statement kept} :
      node.kind? = some .alwaysConstruct ∨ node.kind? = some .initialConstruct →
      node.children = [keyword, statement] →
      lexeme ∈ (["always", "initial"] : List Text) → IsWritten lexeme keyword →
      Procedural statement kept → Procedural node (keyword :: kept)

/-! ## Wrappers -/

/-- The kind of a node tells whether it is a wrapper. -/
theorem isWrapperName_eq {node : Node} {kind : Kind} (h : node.kind? = some kind) :
    isWrapperName node.name = kind.isWrapper := by
  rw [isWrapperName, show Kind.ofName? node.name = some kind from h, Option.any_some]

/-- A node without a kind is no wrapper. -/
theorem isWrapperName_of_none {node : Node} (h : node.kind? = none) :
    isWrapperName node.name = false := by
  rw [isWrapperName, show Kind.ofName? node.name = none from h, Option.any_none]

/-- The wrapper of a statement is a wrapper. -/
theorem IsStatementWrapper.isWrapperName {node : Node} (h : node.IsStatementWrapper) :
    isWrapperName node.name := by
  rcases h with h | h | h
  all_goals
    rw [isWrapperName_eq h]
    rfl

/-- A node that is no wrapper is unwrapped to itself. -/
theorem unwrap_of_not_wrapper {node : Node} (h : isWrapperName node.name = false) :
    node.unwrap = { inner := node } := by
  obtain ⟨name, value, children, leading, trailing⟩ := node
  unfold unwrap
  split
  · simp_all
  · simp_all
  · rfl

/-- A wrapper of a phrase is taken away. -/
theorem unwrap_of_phrase {node inner : Node} (h : isWrapperName node.name)
    (hchildren : node.children = [inner]) (hinner : inner.isToken = false) :
    node.unwrap = { inner.unwrap with wrappers := node :: inner.unwrap.wrappers } := by
  obtain ⟨name, value, children, leading, trailing⟩ := node
  cases hchildren
  simp [unwrap, show isWrapperName name = true from h, hinner]

/-- A wrapper of a phrase with a semicolon is taken away, and its semicolon is the terminator. -/
theorem unwrap_of_ended {node inner semicolon : Node} (h : isWrapperName node.name)
    (hchildren : node.children = [inner, semicolon]) (hinner : inner.isToken = false)
    (hsemicolon : semicolon.isLexeme ";") :
    node.unwrap =
      { inner := inner.unwrap.inner
        terminator := some semicolon
        wrappers := node :: inner.unwrap.wrappers } := by
  obtain ⟨name, value, children, leading, trailing⟩ := node
  cases hchildren
  simp only [unwrap, show isWrapperName name = true from h, hinner, hsemicolon, Bool.not_false,
    Bool.and_self, if_true]

/-- A wrapper of a token stays. -/
theorem unwrap_of_token {node inner : Node} (hchildren : node.children = [inner])
    (hinner : inner.isToken) : node.unwrap = { inner := node } := by
  obtain ⟨name, value, children, leading, trailing⟩ := node
  cases hchildren
  simp [unwrap, hinner]

/-- A node with children is no token. -/
theorem isToken_of_children {node : Node} (h : node.children ≠ []) : node.isToken = false := by
  simp [isToken, h]

/-- A node with a lexeme is a token. -/
theorem isToken_of_isLexeme {node : Node} {lexeme : Text} (h : node.isLexeme lexeme) :
    node.isToken := by
  rw [isLexeme, Bool.and_eq_true] at h
  exact h.1

/-- What is no token has no lexeme. -/
theorem isLexeme_of_not_isToken {node : Node} (h : node.isToken = false) (lexeme : Text) :
    node.isLexeme lexeme = false := by
  rw [isLexeme, h, Bool.false_and]

/-- A token is written in one way. -/
theorem isLexeme_ne {node : Node} {lexeme other : Text} (h : node.isLexeme lexeme)
    (hne : lexeme ≠ other) : node.isLexeme other = false := by
  rw [isLexeme, Bool.and_eq_true] at h
  have hlexeme : node.lexeme = lexeme := eq_of_beq h.2
  simp [isLexeme, hlexeme, hne]

/-! ## What a statement consists of -/

/-- Inside its wrappers an assignment has the leaves that are kept, but for its semicolon. -/
theorem Assigned.spec {node : Node} {ended : Bool} {kept : List Node}
    (h : Assigned node ended kept) :
    node.unwrap.inner.is Kind.isSimpleAssignment ∧ node.isToken = false ∧
      kept = node.unwrap.inner.leaves ++ node.unwrap.terminator.toList ∧
      (∀ semicolon ∈ node.unwrap.terminator, IsWritten ";" semicolon) ∧
      (ended = false → node.unwrap.terminator = none) := by
  induction h with
  | @phrase node hkind htoken =>
      have hwrapper : isWrapperName node.name = false := by
        rw [is, Option.any_eq_true] at hkind
        obtain ⟨kind, hkind, hassignment⟩ := hkind
        rw [isWrapperName_eq hkind]
        cases kind <;> first | rfl | cases hassignment
      rw [unwrap_of_not_wrapper hwrapper]
      exact ⟨hkind, htoken, by simp, by simp, fun _ => rfl⟩
  | @wrapper node inner ended kept hwrapper hchildren _ ih =>
      obtain ⟨hkind, htoken, hkept, hwritten, hended⟩ := ih
      rw [unwrap_of_phrase hwrapper.isWrapperName hchildren htoken]
      exact ⟨hkind, isToken_of_children (by simp [hchildren]), hkept, hwritten, hended⟩
  | @ended node inner semicolon kept hwrapper hchildren hsemicolon _ ih =>
      obtain ⟨hkind, htoken, hkept, -, hended⟩ := ih
      rw [unwrap_of_ended hwrapper.isWrapperName hchildren htoken hsemicolon.1]
      refine ⟨hkind, isToken_of_children (by simp [hchildren]), ?_, ?_, by simp⟩
      · rw [hkept, hended rfl]
        simp
      · simpa using hsemicolon

namespace Procedural

variable {node : Node} {kept : List Node}

/-- The only token that is a statement is a semicolon. -/
theorem isLexeme_eq_false (h : Procedural node kept) {lexeme : Text} (hne : lexeme ≠ ";") :
    node.isLexeme lexeme = false := by
  cases h with
  | assigned h => exact isLexeme_of_not_isToken h.spec.2.1 lexeme
  | null hkind h => exact isLexeme_ne h.1 hne.symm
  | _ => exact isLexeme_of_not_isToken (isToken_of_children (by simp [*])) lexeme

/-- A token that is a statement is all that is kept of it. -/
theorem kept_of_isToken (h : Procedural node kept) (htoken : node.isToken) : kept = [node] := by
  cases h with
  | assigned h => exact absurd htoken (by simp [h.spec.2.1])
  | null => rfl
  | _ => exact absurd htoken (by simp [isToken, *])

/-- Only an assignment takes a semicolon from its wrappers. -/
theorem terminator_eq_none (h : Procedural node kept)
    (hinner : node.unwrap.inner.is Kind.isSimpleAssignment = false) :
    node.unwrap.terminator = none := by
  have hother : ∀ {node : Node} {kind : Kind}, node.kind? = some kind → kind.isWrapper = false →
      node.unwrap.terminator = none := by
    intro node kind hkind hwrapper
    rw [unwrap_of_not_wrapper ((isWrapperName_eq hkind).trans hwrapper)]
  induction h with
  | assigned h => exact absurd h.spec.1 (by simp [hinner])
  | null hkind => rw [unwrap_of_not_wrapper (isWrapperName_of_none hkind)]
  | @wrapper node inner kept hwrapper hchildren _ ih =>
      cases htoken : inner.isToken with
      | true => rw [unwrap_of_token hchildren htoken]
      | false =>
          rw [unwrap_of_phrase hwrapper.isWrapperName hchildren htoken] at hinner ⊢
          exact ih hinner
  | dropped hcollapsible => exact hother (of_isCollapsible hcollapsible).1 rfl
  | construct hkind => exact hkind.elim (fun h => hother h rfl) fun h => hother h rfl
  | block hkind | condition hkind | alternative hkind | choice hkind | item hkind | forLoop hkind
  | whileLoop hkind | forever hkind | timed hkind => exact hother hkind rfl

/-- Behind a timing control stands a statement. -/
theorem of_timing (h : Procedural node kept)
    (hkind : node.unwrap.inner.kind? = some .proceduralTimingControlStatement) :
    ∃ control statement kept', node.unwrap.inner.children = [control, statement] ∧
      Procedural statement kept' ∧ kept = control.leaves ++ kept' := by
  have hother : ∀ {node : Node} {kind : Kind}, node.kind? = some kind → kind.isWrapper = false →
      kind ≠ .proceduralTimingControlStatement →
      node.unwrap.inner.kind? ≠ some .proceduralTimingControlStatement := by
    intro node kind hnode hwrapper hne
    rw [unwrap_of_not_wrapper ((isWrapperName_eq hnode).trans hwrapper), hnode]
    simpa using hne
  -- Only a wrapper hides the statement; every other construct is of another kind than the one asked
  -- for.
  induction h with
  | assigned h => exact absurd h.spec.1 (by rw [is, hkind]; decide)
  | null hnone =>
      rw [unwrap_of_not_wrapper (isWrapperName_of_none hnone), hnone] at hkind
      cases hkind
  | @wrapper node inner kept hwrapper hchildren _ ih =>
      cases htoken : inner.isToken with
      | true =>
          rw [unwrap_of_token hchildren htoken] at hkind
          exact absurd hkind (by rcases hwrapper with h | h | h <;> simp [h])
      | false =>
          rw [unwrap_of_phrase hwrapper.isWrapperName hchildren htoken] at hkind ⊢
          exact ih hkind
  | @timed node control statement kept hnode hchildren _ hstatement =>
      rw [unwrap_of_not_wrapper (isWrapperName_eq hnode)]
      exact ⟨control, statement, kept, hchildren, hstatement, rfl⟩
  | dropped hcollapsible =>
      exact absurd hkind (hother (of_isCollapsible hcollapsible).1 rfl (by decide))
  | construct hnode =>
      rcases hnode with hnode | hnode
      · exact absurd hkind (hother hnode rfl (by decide))
      · exact absurd hkind (hother hnode rfl (by decide))
  | block hnode | condition hnode | alternative hnode | choice hnode | item hnode | forLoop hnode
  | whileLoop hnode | forever hnode => exact absurd hkind (hother hnode rfl (by decide))

end Procedural

end Node
end VerilogLayout

import VerilogLayout.Proofs.Procedural.Shape

/-!
# Procedural code keeps its tokens

`Inks m leaves` says that a renderer gives a text with the ink of these leaves. Each renderer of
statements does if the statements inside do; `inks_phrased` puts them together by induction on the
height of a statement, and `format_keeps_tokens` is the result.
-/

namespace VerilogLayout

namespace Node

/-- A token is written with the ink of its lexeme. -/
theorem IsWritten.ink_text {node : Node} {lexeme : Text} (h : IsWritten lexeme node)
    (hne : lexeme ≠ Lexeme.endOfFile) : node.text.ink = lexeme.ink := by
  obtain ⟨name, value, children, leading, trailing⟩ := node
  obtain ⟨htoken, hname⟩ := h
  rw [isLexeme, isToken, Bool.and_eq_true, Bool.and_eq_true] at htoken
  obtain ⟨⟨-, hchildren⟩, hlexeme⟩ := htoken
  obtain rfl : children = [] := List.isEmpty_iff.1 hchildren
  have hvalue : value.getD [] = lexeme := eq_of_beq hlexeme
  have hspaced : ∀ place, (Lexeme.spaced place name lexeme).ink = lexeme.ink := by
    intro place
    cases hfixed : Lexeme.byName? name with
    | none => exact Lexeme.ink_spaced_of_free place hfixed hne
    | some text => rw [Lexeme.spaced, if_neg hne, hfixed, hname text hfixed]
  simp only [text, spelled, spelledAt, commentsInFront, commentsBehind, hvalue]
  simpa using hspaced _

/-- The ink of a token is its lexeme. -/
theorem IsWritten.ink {node : Node} {lexeme : Text} (h : IsWritten lexeme node)
    (hlexeme : lexeme.ink = lexeme ∧ lexeme ≠ Lexeme.endOfFile) : node.text.ink = lexeme := by
  rw [h.ink_text hlexeme.2, hlexeme.1]

end Node

namespace Render

open Node Text

/-- A renderer gives a text with the ink of these leaves. -/
def Inks (m : Render Text) (leaves : List Node) : Prop :=
  ∃ text, m = pure text ∧ text.ink = inkOf leaves

/-- Items below each other have the ink of each of them. -/
theorem inks_items {format : Formatter} {level : Int} {nodes : List Node}
    {kept : Node → List Node} (h : ∀ node ∈ nodes, Inks (format node level none) (kept node)) :
    Inks (items format level nodes) (nodes.flatMap kept) := by
  induction nodes with
  | nil => exact ⟨[], rfl, rfl⟩
  | cons node rest ih =>
      obtain ⟨hnode, hrest⟩ := List.forall_mem_cons.1 h
      obtain ⟨text, htext, hink⟩ := hnode
      obtain ⟨others, hothers, hinks⟩ := ih hrest
      refine ⟨text ++ others, by simp [items, htext, hothers], ?_⟩
      rw [ink_append, hink, hinks, List.flatMap_cons, inkOf_append]

/-- Placing a text on its lines adds no ink. -/
theorem ink_placed (root : Bool) (node : Node) (level : Int) (text : Text) :
    (placed root node level text).ink = text.ink := by
  have hfeed : ink "\n" = [] := rfl
  unfold placed
  dsimp only
  split_ifs
  all_goals simp only [ink_append, ink_indentFor, hfeed, List.nil_append, List.append_nil]

/-- The phrase inside the wrappers of a node, with the terminator that they add. -/
def phrased (columns : Columns) (format : Formatter) (node : Node) (level : Int) : Render Text :=
  terminated node.unwrap.inner level node.unwrap.terminator <$>
    phrase columns format node.unwrap.inner level node.unwrap.terminator

/-- A node without comments has the ink of its phrase. -/
theorem Inks.formatWith {columns : Columns} {format : Formatter} {node : Node} {level : Int}
    {kept : List Node} (h : Inks (phrased columns format node level) kept) (hplain : node.Plain)
    (root : Bool) : Inks (formatWith columns format root node level none) kept := by
  obtain ⟨text, htext, hink⟩ := h
  refine ⟨placed root node level text, ?_, (ink_placed root node level text).trans hink⟩
  rw [formatWith_plain columns format root hplain level (by simp), comp_map]
  show placed root node level <$> phrased columns format node level = _
  rw [htext, map_pure]

/-! ## Bodies -/

/-- The body behind a header has the ink of these leaves, and a block ends its line. -/
def BodyInks (format : Formatter) (statement : Node) (kept : List Node) : Prop :=
  ∀ level, ∃ result, body format statement level [] = pure result ∧ result.1.ink = inkOf kept ∧
    (result.2 → result.1.getLast? = some (.char '\n'))

/-- A block that is not dropped writes itself. -/
theorem phrase_of_opensBlock (columns : Columns) (format : Formatter) {inner : Node}
    (hopens : inner.opensBlock) (hcollapsible : inner.isCollapsible = false) (level : Int)
    (terminator : Option Node) :
    phrase columns format inner level terminator = block format inner level [] [] := by
  have hblock : inner.kind? = some .seqBlock ∨ inner.kind? = some .generateBlock := by
    rw [opensBlock, is, Bool.and_eq_true, Option.any_eq_true] at hopens
    obtain ⟨⟨kind, hkind, hblock⟩, -⟩ := hopens
    cases kind <;> first | exact .inl hkind | exact .inr hkind | cases hblock
  rcases hblock with hkind | hkind
  · rw [phrase, hkind]
    exact seqBlock_of_not_collapsible format hcollapsible level
  · rw [phrase, hkind]
    show generateBlock format inner level = _
    rw [generateBlock, if_pos hopens]

/-- A block ends its line. -/
theorem getLast?_of_block {format : Formatter} {node : Node} {level : Int} {text : Text}
    (hplain : node.Plain) (h : block format node level [] [] = pure text) :
    text.getLast? = some (.char '\n') := by
  rw [block_plain format hplain] at h
  have hrun : _ = (Except.ok text, ({} : Ledger)) := congrFun h {}
  obtain ⟨first, middle, -, hrun⟩ := exists_of_bind hrun
  obtain ⟨lines, final, -, hrun⟩ := exists_of_bind hrun
  obtain rfl := Except.ok.inj (congrArg Prod.fst hrun)
  exact getLast?_append_eq (getLast?_append_eq rfl)

/-- A statement is a body with the ink that it has as a phrase. -/
theorem bodyInks {columns : Columns} {format : Formatter} {statement : Node} {kept : List Node}
    (hplain : statement.Plain)
    (hphrased : ∀ level, Inks (phrased columns format statement level) kept)
    (hformat : ∀ level, Inks (format statement level none) kept)
    (hterminator : statement.unwrap.inner.opensBlock → statement.unwrap.terminator = none) :
    BodyInks format statement kept := by
  intro level
  cases hblock : statement.unwrap.inner.opensBlock && !statement.unwrap.inner.isCollapsible with
  | true =>
      rw [Bool.and_eq_true, Bool.not_eq_true'] at hblock
      obtain ⟨hopens, hcollapsible⟩ := hblock
      obtain ⟨text, htext, hink⟩ := hphrased level
      rw [phrased, hterminator hopens, phrase_of_opensBlock columns format hopens hcollapsible]
        at htext
      have hsame : terminated statement.unwrap.inner level none = id := rfl
      rw [hsame, id_map] at htext
      have hlast := getLast?_of_block (within_unwrap hplain).1 htext
      refine ⟨(" " ++ text, true), ?_, ?_, fun _ => getLast?_append_eq hlast⟩
      · rw [body_of_block format hplain (by simp [hopens, hcollapsible]), htext, pure_bind]
      · rw [ink_append, hink]
        rfl
  | false =>
      obtain ⟨text, htext, hink⟩ := hformat (level + 1)
      refine ⟨("\n" ++ text, false), ?_, ?_, by simp⟩
      · rw [body_of_not_block format hblock, htext, pure_bind]
      · rw [ink_append, hink]
        rfl

/-- A statement on the line of its label has the ink of the statement. -/
theorem inks_inlineStatement {format : Formatter} {statement : Node} {kept : List Node}
    {level : Int} (h : Inks (format statement level none) kept) :
    Inks (inlineStatement format statement level) kept := by
  obtain ⟨text, htext, hink⟩ := h
  refine ⟨Text.dropRightWhile (· = .char '\n') (stripIndent text level), ?_, ?_⟩
  · rw [inlineStatement, htext, pure_bind]
  · rw [ink_dropRightWhile, ink_stripIndent, hink]
    intro c hc
    obtain rfl : c = '\n' := by simpa using hc
    rfl

/-! ## Blocks and constructs -/

section
variable {format : Formatter}

/-- A block has the ink of its keywords, its label and its statements. -/
theorem inks_block {node first last : Node} {label statements : List Node}
    {kept : Node → List Node} (hplain : node.Plain)
    (hnode : node.children = first :: (label ++ statements ++ [last]))
    (hfirst : IsWritten "begin" first) (hlabel : IsBlockLabel label) (hlast : IsWritten "end" last)
    (hcolon : ∀ statement ∈ statements, statement.isLexeme ":" = false) {level : Int}
    (hstatements : ∀ statement ∈ statements,
      Inks (format statement (level + 1) none) (kept statement)) :
    Inks (block format node level [] [])
      (first :: (leavesAll label ++ statements.flatMap kept ++ [last])) := by
  have hsplit : splitLabel (splitBlock node.children).1 = (label, statements) := by
    rw [hnode, splitBlock_eq hlast.1, splitLabel_append hlabel hcolon]
  have htitle : (blockTitle node).ink = first.text.ink ++ inkOf (leavesAll label) := by
    rw [blockTitle, blockLabel, hsplit, hfirst.ink (by decide)]
    cases hlabel with
    | none => rfl
    | @some colon name hwritten =>
        have hleaves : colon.leaves = [colon] := leaves_of_isToken (isToken_of_isLexeme hwritten.1)
        simp only [leavesAll, hleaves, List.append_nil, inkOf_append, inkOf_cons, inkOf_nil,
          hwritten.ink (by decide), ink_append, ink_text name]
        rfl
  obtain ⟨lines, hlines, hink⟩ := inks_items hstatements
  refine ⟨blockTitle node ++ "\n" ++ lines ++ (indentFor level ++ "end" ++ "\n"), ?_, ?_⟩
  · rw [block_plain format hplain, blockStatements, hsplit, hnode]
    simp only [List.head?_cons, require, pure_bind, hlines]
  · have hfeed : ink "\n" = [] := rfl
    have hend : ink "end" = ("end" : Text) := rfl
    simp only [ink_append, htitle, hink, hfeed, hend, ink_indentFor, inkOf_cons, inkOf_append,
      inkOf_nil, hlast.ink (by decide), List.append_nil, List.nil_append, List.append_assoc]

/-- A block that can be dropped is written as its statement. -/
theorem inks_dropped {node first statement last : Node} {kept : List Node}
    (hcollapsible : node.isCollapsible) (hnode : node.children = [first, statement, last])
    {level : Int} (hstatement : Inks (format statement level none) kept) :
    Inks (seqBlock format node level) kept := by
  obtain ⟨text, htext, hink⟩ := hstatement
  refine ⟨stripIndent text level, ?_, (ink_stripIndent text level).trans hink⟩
  rw [seqBlock_of_collapsible format hnode hcollapsible, htext, pure_bind]

/-- A timing control stays on the line of a keyword without a loss. -/
theorem inks_timedBody {statement : Node} {kept : List Node} (hplain : statement.Plain)
    (h : Procedural statement kept) (hbody : BodyInks format statement kept)
    (htimed : ∀ timed kept', timed ∈ statement.unwrap.inner.children → Procedural timed kept' →
      BodyInks format timed kept') (level : Int) :
    Inks (timedBody format statement level []) kept := by
  by_cases hkind : statement.unwrap.inner.kind? = some .proceduralTimingControlStatement
  · obtain ⟨control, timed, kept', hchildren, hprocedural, rfl⟩ := h.of_timing hkind
    obtain ⟨result, hresult, hink, -⟩ := htimed timed kept' (by simp [hchildren]) hprocedural level
    refine ⟨" " ++ control.text ++ result.1, ?_, ?_⟩
    · have hends : statement.unwrap.inner.children = control :: ([] ++ [timed]) := hchildren
      rw [timedBody_of_timing format hplain hkind hends, hresult, pure_bind]
    · rw [ink_append, ink_append, ink_text, hink, inkOf_append]
      rfl
  · obtain ⟨result, hresult, hink, -⟩ := hbody level
    refine ⟨result.1, ?_, hink⟩
    rw [timedBody_of_not_timing format hkind, hresult, pure_bind]

/-- A procedural construct has the ink of its keyword and its statement. -/
theorem inks_procedural {node keyword statement : Node} {kept : List Node} (hplain : node.Plain)
    (hnode : node.children = [keyword, statement]) {level : Int}
    (hstatement : Inks (timedBody format statement level []) kept) :
    Inks (procedural format node level) (keyword :: kept) := by
  obtain ⟨text, htext, hink⟩ := hstatement
  refine ⟨keyword.text ++ text, ?_, by rw [ink_append, hink, inkOf_cons]⟩
  have hhead : node.children.head? = some keyword := by simp [hnode]
  have hlast : node.children.getLast? = some statement := by simp [hnode]
  rw [procedural_plain format hplain hhead hlast, htext, pure_bind]

/-! ## Conditions and choices -/

/-- A header has the ink of its keyword and of the condition in brackets. -/
theorem ink_header {keyword opening e closing : Node} (hopening : IsWritten "(" opening)
    (hclosing : IsWritten ")" closing) :
    ink (header keyword.text [e]) = inkOf (keyword :: opening :: (e.leaves ++ [closing])) := by
  have hspace : ink " (" = ("(" : Text) := rfl
  have hend : ink ")" = (")" : Text) := rfl
  rw [header, ink_append, ink_append, ink_append, ink_joinedText, hspace, hend]
  simp only [leavesAll, List.append_nil, inkOf_cons, inkOf_append, inkOf_nil,
    hopening.ink (by decide), hclosing.ink (by decide), List.append_assoc]

/-- The branch in front of another one adds the ink of the keyword. -/
theorem ink_beforeElse {branch : Text} {isBlock : Bool} (level : Int)
    (h : isBlock → branch.getLast? = some (.char '\n')) :
    (beforeElse branch isBlock level).ink = branch.ink ++ "else" := by
  have hspace : ink " else" = ("else" : Text) := rfl
  have helse : ink "else" = ("else" : Text) := rfl
  unfold beforeElse
  split
  · next hblock => rw [ink_append, ink_dropLast (h hblock.1), hspace]
  · rw [ink_append, ink_append, ink_indentFor, List.append_nil, helse]

/-- A condition without an alternative has the ink of its header and its statement. -/
theorem inks_condition {node keyword opening e closing statement : Node} {kept : List Node}
    (hplain : node.Plain) (hnode : node.children = [keyword, opening, e, closing, statement])
    (hkeyword : keyword.isLexeme "(" = false) (hopening : IsWritten "(" opening)
    (he : e.isToken = false) (hclosing : IsWritten ")" closing)
    (hbody : BodyInks format statement kept) (fuel : Nat) (level : Int) :
    Inks (conditional format (fuel + 1) node level [])
      (keyword :: opening :: (e.leaves ++ closing :: kept)) := by
  obtain ⟨result, hresult, hink, -⟩ := hbody level
  have hbranches : Branches.ofChildren? node.children = some
      { head := [keyword, opening, e, closing]
        condition := [e]
        first := statement
        second := none } := by
    rw [hnode, Branches.ofChildren?, parens?_header hkeyword hopening.1 he hclosing.1]
    rfl
  refine ⟨header keyword.text [e] ++ result.1, ?_, ?_⟩
  · rw [conditional_plain format fuel hplain hnode hbranches, hresult, pure_bind]
  · rw [ink_append, ink_header hopening hclosing, hink]
    simp

/-- A condition with an alternative has the ink of its header and of both statements. -/
theorem inks_alternative {node keyword opening e closing statement separator other : Node}
    {kept otherKept : List Node} (hplain : node.Plain)
    (hnode : node.children = [keyword, opening, e, closing, statement, separator, other])
    (hkeyword : keyword.isLexeme "(" = false) (hopening : IsWritten "(" opening)
    (he : e.isToken = false) (hclosing : IsWritten ")" closing)
    (hseparator : IsWritten "else" separator) (hbody : BodyInks format statement kept)
    {fuel : Nat} {level : Int} (hother : Inks (elseBranch format fuel other level) otherKept) :
    Inks (conditional format (fuel + 1) node level [])
      (keyword :: opening :: (e.leaves ++ closing :: (kept ++ separator :: otherKept))) := by
  obtain ⟨result, hresult, hink, hline⟩ := hbody level
  obtain ⟨rest, hrest, hinkRest⟩ := hother
  have hbranches : Branches.ofChildren? node.children = some
      { head := [keyword, opening, e, closing]
        condition := [e]
        first := statement
        second := some (separator, other) } := by
    have hindex : indexOf? "else" [keyword, opening, e, closing, statement, separator, other] 5 =
        some 5 := by
      simp [indexOf?, List.findIdx?_cons, hseparator.1, -String.reduceToList]
    rw [hnode, Branches.ofChildren?, parens?_header hkeyword hopening.1 he hclosing.1]
    simp [hindex, between, -String.reduceToList]
  have hlast : result.2 → (header keyword.text [e] ++ result.1).getLast? = some (.char '\n') :=
    fun h => getLast?_append_eq (hline h)
  refine ⟨beforeElse (header keyword.text [e] ++ result.1) result.2 level ++ rest, ?_, ?_⟩
  · rw [conditional_plain format fuel hplain hnode hbranches, hresult, pure_bind]
    simp only [hrest, pure_bind]
  · rw [ink_append, ink_beforeElse level hlast, ink_append, ink_header hopening hclosing, hink,
      hinkRest]
    simp [hseparator.ink (by decide)]

/-- An alternative has the ink of its statement, also where that goes on with a condition. -/
theorem inks_elseBranch {columns : Columns} {other : Node} {kept : List Node} {fuel : Nat}
    (hheight : other.height ≤ fuel) (hterminator : other.unwrap.inner.is Kind.isConditional →
      other.unwrap.terminator = none)
    (hphrased : ∀ level, Inks (phrased columns format other level) kept)
    (hbody : BodyInks format other kept) (level : Int) :
    Inks (elseBranch format fuel other level) kept := by
  unfold elseBranch
  split
  · next hconditional =>
      obtain ⟨text, htext, hink⟩ := hphrased level
      have hphrase : phrase columns format other.unwrap.inner level none =
          conditional format other.unwrap.inner.height other.unwrap.inner level [] := by
        rw [is, Option.any_eq_true] at hconditional
        obtain ⟨kind, hkind, hconditional⟩ := hconditional
        rw [phrase, hkind]
        cases kind <;> first | rfl | cases hconditional
      have hsame : terminated other.unwrap.inner level none = id := rfl
      rw [phrased, hterminator hconditional, hphrase, hsame, id_map] at htext
      refine ⟨" " ++ text, ?_, ?_⟩
      · rw [conditional_fuel format (Nat.le_trans (height_unwrap_le other) hheight) (Nat.le_refl _),
          htext, pure_bind]
      · rw [ink_append, hink]
        rfl
  · obtain ⟨result, hresult, hink, -⟩ := hbody level
    exact ⟨result.1, by rw [hresult, pure_bind], hink⟩

/-- A choice has the ink of its header, its items and its last keyword. -/
theorem inks_choice {node keyword opening e closing last : Node} {caseItems : List Node}
    {kept : Node → List Node} (hplain : node.Plain)
    (hnode : node.children = keyword :: opening :: e :: closing :: (caseItems ++ [last]))
    (hkeyword : keyword.isLexeme "(" = false) (hopening : IsWritten "(" opening)
    (he : e.isToken = false) (hclosing : IsWritten ")" closing) (hlast : IsWritten "endcase" last)
    {level : Int}
    (hitems : ∀ item ∈ caseItems, Inks (format item (level + 1) none) (kept item)) :
    Inks (caseStatement format node level)
      (keyword :: opening :: (e.leaves ++ closing :: (caseItems.flatMap kept ++ [last]))) := by
  have hparens : parens? (keyword :: opening :: e :: closing :: (caseItems ++ [last])) = _ :=
    parens?_header hkeyword hopening.1 he hclosing.1
  obtain ⟨hinside, hend⟩ := caseItems_eq [keyword, opening, e, closing] caseItems hlast.1
  have hlexeme : last.lexeme = ("endcase" : Text) := by
    have hwritten := hlast.1
    rw [isLexeme, Bool.and_eq_true] at hwritten
    exact eq_of_beq hwritten.2
  obtain ⟨lines, hlines, hink⟩ := inks_items hitems
  rw [← hnode] at hparens
  refine ⟨header keyword.text [e] ++ "\n" ++ lines ++ (indentFor level ++ "endcase" ++ "\n"),
    ?_, ?_⟩
  · rw [caseStatement_plain format hplain hnode hparens, hnode]
    simp only [List.cons_append, List.nil_append, List.length_cons, List.length_nil,
      Nat.zero_add, Nat.reduceAdd] at hinside hend
    rw [hinside, hend, hlines, pure_bind, Option.map_some, Option.getD_some, hlexeme]
    rfl
  · have hfeed : ink "\n" = [] := rfl
    have hword : ink "endcase" = ("endcase" : Text) := rfl
    simp only [ink_append, ink_header hopening hclosing, hink, hfeed, hword, ink_indentFor,
      inkOf_cons, inkOf_append, inkOf_nil, hlast.ink (by decide), List.append_nil, List.nil_append,
      List.append_assoc]

/-- Groups that are joined with their separator lose no token, unless one stands at the end. -/
theorem ink_intercalate_groups {lexeme separator : Text} (hseparator : separator.ink = lexeme)
    (hlexeme : lexeme.ink = lexeme ∧ lexeme ≠ Lexeme.endOfFile) {nodes : List Node}
    (hwritten : ∀ node ∈ nodes, node.isLexeme lexeme → IsWritten lexeme node)
    (hlast : ∀ node ∈ nodes.getLast?, node.isLexeme lexeme = false) :
    ink (List.intercalate separator ((groups lexeme nodes).map fun group =>
      joinedText group.items)) = inkOf (leavesAll nodes) := by
  induction nodes with
  | nil => rfl
  | cons node rest ih =>
      obtain ⟨hnode, hrest⟩ := List.forall_mem_cons.1 hwritten
      have hrestLast : ∀ last ∈ rest.getLast?, last.isLexeme lexeme = false := by
        intro last hmem
        refine hlast last ?_
        cases rest with
        | nil => simp at hmem
        | cons next others => simpa [List.getLast?_cons_cons] using hmem
      specialize ih hrest hrestLast
      rw [leavesAll, inkOf_append, ← ih]
      cases hfound : node.isLexeme lexeme with
      | true =>
          -- The group in front of the lexeme is empty; as the lexeme does not stand last, another
          -- group follows.
          have hne : rest ≠ [] := by
            rintro rfl
            simp [hfound] at hlast
          obtain ⟨group, others, hgroups⟩ := List.exists_cons_of_ne_nil
            (groups_ne_nil lexeme hne)
          have hink : node.text.ink = lexeme := (hnode hfound).ink hlexeme
          have hempty : (joinedText []).ink = [] := rfl
          rw [groups, if_pos hfound, hgroups, List.map_cons, List.map_cons,
            List.intercalate_cons_cons,
            ink_append, ink_append, hempty, hseparator, leaves_of_isToken
              (isToken_of_isLexeme hfound), inkOf_cons, hink, inkOf_nil, List.append_nil,
            List.nil_append]
      | false =>
          rw [groups, if_neg (by simp [hfound])]
          cases hgroups : groups lexeme rest with
          | nil => simp [ink_joinedText, leavesAll]
          | cons group others =>
              have hgroup : (joinedText (node :: group.items)).ink =
                  inkOf node.leaves ++ (joinedText group.items).ink := by
                rw [ink_joinedText, ink_joinedText, leavesAll, inkOf_append]
              cases others with
              | nil => simpa using hgroup
              | cons next others =>
                  simp only [List.map_cons, List.intercalate_cons_cons, ink_append, hgroup,
                    List.append_assoc]

/-- An item of a choice has the ink of its labels, the colon and its statement. -/
theorem inks_item {node colon statement : Node} {labels kept : List Node} (hplain : node.Plain)
    (hnode : node.children = labels ++ [colon, statement]) (hlabels : AreLabels labels)
    (hcolon : IsWritten ":" colon) {level : Int} (hformat : Inks (format statement level none) kept)
    (hbody : BodyInks format statement kept) :
    Inks (caseItem format node level) (leavesAll labels ++ colon :: kept) := by
  have hlast : node.children.getLast? = some statement := by simp [hnode]
  have hlabel : (caseLabelText node.children).ink = inkOf (leavesAll labels) := by
    have hindex : indexOf? ":" node.children = some labels.length := by
      rw [hnode, indexOf?_append hlabels.no_colon hcolon.1]
    rw [caseLabelText, caseLabels, hindex, hnode]
    dsimp only
    rw [List.take_left]
    exact ink_intercalate_groups rfl (by decide) hlabels.commas hlabels.last
  have hspace : ink ": " = (":" : Text) := rfl
  have hword : ink ":" = (":" : Text) := rfl
  rw [caseItem_plain format hplain hlast]
  split
  · obtain ⟨text, htext, hink⟩ := inks_inlineStatement hformat
    refine ⟨_, by rw [htext, pure_bind], ?_⟩
    rw [ink_append, ink_append, hlabel, hspace, hink, inkOf_append, inkOf_cons,
      hcolon.ink (by decide), List.append_assoc]
  · obtain ⟨result, hresult, hink, -⟩ := hbody level
    refine ⟨_, by rw [hresult, pure_bind], ?_⟩
    rw [ink_append, ink_append, hlabel, hword, hink, inkOf_append, inkOf_cons,
      hcolon.ink (by decide), List.append_assoc]

/-! ## Loops and timing controls -/

/-- A loop has the ink of its header and its statement. -/
theorem inks_loop {node first statement : Node} {middle kept : List Node} {leaves : List Node}
    (hplain : node.Plain) (hnode : node.children = first :: (middle ++ [statement]))
    (hheader : (loopHeader (first :: middle)).ink = inkOf leaves)
    (hbody : BodyInks format statement kept) (level : Int) :
    Inks (loop format node level) (leaves ++ kept) := by
  obtain ⟨result, hresult, hink, -⟩ := hbody level
  refine ⟨loopHeader (first :: middle) ++ result.1, ?_, ?_⟩
  · rw [loop_plain format hplain hnode, hresult, pure_bind]
  · rw [ink_append, hheader, hink, inkOf_append]

/-- The clauses of a loop keep their semicolons, unless one stands at the end. -/
theorem ink_loopHeader {keyword opening closing : Node} {clauses : List Node}
    (hkeyword : keyword.isLexeme "(" = false) (hopening : IsWritten "(" opening)
    (hbalanced : Balanced clauses) (hclosing : IsWritten ")" closing)
    (hwritten : ∀ node ∈ clauses, node.isLexeme ";" → IsWritten ";" node)
    (hlast : ∀ node ∈ clauses.getLast?, node.isLexeme ";" = false) :
    (loopHeader (keyword :: opening :: (clauses ++ [closing]))).ink =
      inkOf (keyword :: opening :: (leavesAll clauses ++ [closing])) := by
  have hspace : ink " (" = ("(" : Text) := rfl
  have hend : ink ")" = (")" : Text) := rfl
  have hsemicolon : ink "; " = (";" : Text) := rfl
  have hinside : between (keyword :: opening :: (clauses ++ [closing])) 2 (clauses.length + 2) =
      clauses := by
    simp [between]
  unfold loopHeader
  simp only [parens?_balanced hkeyword hopening.1 hbalanced hclosing.1]
  rw [hinside, ink_append, ink_append, ink_append,
    ink_intercalate_groups hsemicolon (by decide) hwritten hlast, hspace, hend]
  simp only [inkOf_cons, inkOf_append, inkOf_nil, hopening.ink (by decide),
    hclosing.ink (by decide), List.append_nil, List.append_assoc]

/-- A loop with clauses keeps the semicolons between them. -/
theorem inks_forLoop {node keyword opening semicolon semicolon' closing statement : Node}
    {start condition step kept : List Node} (hplain : node.Plain)
    (hnode : node.children = keyword :: opening :: (start ++ semicolon :: (condition ++
      semicolon' :: (step ++ [closing, statement]))))
    (hkeyword : keyword.isLexeme "(" = false) (hopening : IsWritten "(" opening)
    (hstart : IsClause start) (hsemicolon : IsWritten ";" semicolon)
    (hcondition : IsClause condition) (hsemicolon' : IsWritten ";" semicolon')
    (hstep : IsClause step) (hclosing : IsWritten ")" closing)
    (hbody : BodyInks format statement kept) (level : Int) :
    Inks (loop format node level) (keyword :: opening :: (leavesAll start ++ semicolon ::
      (leavesAll condition ++ semicolon' :: (leavesAll step ++ closing :: kept)))) := by
  obtain ⟨hbalanced, hwritten, hlast⟩ := forClauses hstart hsemicolon hcondition hsemicolon' hstep
  have hheader := ink_loopHeader hkeyword hopening hbalanced hclosing hwritten hlast
  have hshape : node.children = keyword :: (opening :: (start ++ semicolon ::
      (condition ++ semicolon' :: step) ++ [closing]) ++ [statement]) := by
    simp [hnode]
  have hloop := inks_loop hplain hshape hheader hbody level
  simpa [leavesAll, leaves_of_isToken (isToken_of_isLexeme hsemicolon.1),
    leaves_of_isToken (isToken_of_isLexeme hsemicolon'.1)] using hloop

/-- A loop with a condition has no semicolons to keep. -/
theorem inks_whileLoop {node keyword opening e closing statement : Node} {kept : List Node}
    (hplain : node.Plain) (hnode : node.children = [keyword, opening, e, closing, statement])
    (hkeyword : keyword.isLexeme "(" = false) (hopening : IsWritten "(" opening)
    (he : e.isToken = false) (hclosing : IsWritten ")" closing)
    (hbody : BodyInks format statement kept) (level : Int) :
    Inks (loop format node level) (keyword :: opening :: (e.leaves ++ closing :: kept)) := by
  have hnone := isLexeme_of_not_isToken he
  have hclause : ∀ node ∈ [e], node.isLexeme ";" = false := by
    simp [hnone, -String.reduceToList]
  have hwritten : ∀ node ∈ [e], node.isLexeme ";" → IsWritten ";" node :=
    fun node hmem hfound => absurd hfound (Bool.eq_false_iff.1 (hclause node hmem))
  have hheader := ink_loopHeader hkeyword hopening (.cons (hnone "(") (hnone ")") .nil) hclosing
    hwritten fun node hmem => hclause node (List.mem_of_getLast? hmem)
  have hends : node.children = keyword :: ([opening, e, closing] ++ [statement]) := hnode
  simpa [leavesAll] using inks_loop hplain hends hheader hbody level

/-- A loop without an end has nothing in parentheses. -/
theorem inks_forever {node keyword statement : Node} {kept : List Node} (hplain : node.Plain)
    (hnode : node.children = [keyword, statement]) (hkeyword : keyword.isLexeme "(" = false)
    (hbody : BodyInks format statement kept) (level : Int) :
    Inks (loop format node level) (keyword :: kept) := by
  have hparens : parens? [keyword] = none := by
    simp [parens?, indexOf?, List.findIdx?_cons, hkeyword, -String.reduceToList]
  have hheader : (loopHeader [keyword]).ink = inkOf [keyword] := by
    simp [loopHeader, hparens]
  have hends : node.children = keyword :: ([] ++ [statement]) := hnode
  exact inks_loop hplain hends hheader hbody level

/-- A timed statement has the ink of its timing and its statement. -/
theorem inks_timed {node control statement : Node} {kept : List Node} (hplain : node.Plain)
    (hnode : node.children = [control, statement]) {level : Int}
    (hformat : Inks (format statement level none) kept) (hbody : BodyInks format statement kept) :
    Inks (timingControl format node level) (control.leaves ++ kept) := by
  have hspace : ink " " = [] := rfl
  have hends : node.children = control :: ([] ++ [statement]) := hnode
  rw [timingControl_plain format hplain hends]
  split
  · obtain ⟨text, htext, hink⟩ := inks_inlineStatement hformat
    refine ⟨_, by rw [htext, pure_bind], ?_⟩
    rw [ink_append, ink_append, ink_text, hspace, hink, inkOf_append, List.append_nil]
  · obtain ⟨result, hresult, hink, -⟩ := hbody level
    refine ⟨_, by rw [hresult, pure_bind], ?_⟩
    rw [ink_append, ink_text, hink, inkOf_append]

end

/-! ## Whole statements -/

/-- No phrase is in two classes of kinds that have no kind in common. -/
theorem is_eq_false_of_is {node : Node} {p q : Kind → Bool}
    (hdisjoint : ∀ kind, p kind → q kind = false) (h : node.is p) : node.is q = false := by
  rw [is, Option.any_eq_true] at h
  obtain ⟨kind, hkind, hp⟩ := h
  rw [is, hkind, Option.any_some, hdisjoint kind hp]

/-- No block is an assignment. -/
theorem block_ne_assignment (kind : Kind) (h : kind.isBlock) : kind.isSimpleAssignment = false := by
  cases kind <;> first | rfl | cases h

/-- No condition is an assignment. -/
theorem conditional_ne_assignment (kind : Kind) (h : kind.isConditional) :
    kind.isSimpleAssignment = false := by
  cases kind <;> first | rfl | cases h

/-- A phrase of a kind with a renderer is written by it. -/
theorem phrased_of_kind {columns : Columns} {format : Formatter} {node : Node} {kind : Kind}
    (hkind : node.kind? = some kind) (hwrapper : kind.isWrapper = false)
    {render : Node → Int → Option Node → Render Text}
    (hrender : renderer? columns format kind = some render) (level : Int) :
    phrased columns format node level = render node level none := by
  rw [phrased, unwrap_of_not_wrapper ((isWrapperName_eq hkind).trans hwrapper), phrase, hkind,
    Option.bind_some, hrender]
  exact id_map _

/-- An assignment has the ink of its sides and its sign. -/
theorem inks_assigned {columns : Columns} {format : Formatter} {node : Node} {ended : Bool}
    {kept : List Node} (h : Assigned node ended kept) (hplain : node.Plain) (level : Int) :
    Inks (phrased columns format node level) kept := by
  obtain ⟨hkind, -, rfl, hwritten, -⟩ := h.spec
  obtain ⟨hinner, hterminator, -⟩ := within_unwrap hplain
  refine ⟨node.unwrap.inner.text ++ terminatorText node.unwrap.terminator, ?_, ?_⟩
  · rw [phrased, phrase_of_isSimpleAssignment format columns hinner hkind level hterminator,
      map_pure, terminated_of_isSimpleAssignment hkind]
  · rw [ink_append, ink_text, inkOf_append]
    cases hfound : node.unwrap.terminator with
    | none => rfl
    | some semicolon =>
        have hsemicolon := hwritten semicolon hfound
        have hlexeme : semicolon.lexeme = (";" : Text) := by
          have hlexeme := hsemicolon.1
          rw [isLexeme, Bool.and_eq_true] at hlexeme
          exact eq_of_beq hlexeme.2
        have hink : ink ";" = (";" : Text) := rfl
        simp only [terminatorText, Option.map_some, Option.getD_some, hlexeme, hink,
          Option.toList_some, inkOf_cons, inkOf_nil, hsemicolon.ink (by decide), List.append_nil]

/-- A wrapper is written as the statement in it, or as its token. -/
theorem inks_wrapper {columns : Columns} {format : Formatter} {node inner : Node} {kept : List Node}
    (hwrapper : node.IsStatementWrapper) (hnode : node.children = [inner])
    (hinner : Procedural inner kept) {level : Int}
    (hphrased : Inks (phrased columns format inner level) kept) :
    Inks (phrased columns format node level) kept := by
  cases htoken : inner.isToken with
  | true =>
      have hrender : node.kind?.bind (renderer? columns format) = none := by
        rcases hwrapper with hkind | hkind | hkind
        all_goals
          rw [hkind]
          rfl
      have hleaves : node.leaves = kept := by
        rw [hinner.kept_of_isToken htoken, leaves_of_single hnode, leaves_of_isToken htoken]
      rw [phrased, unwrap_of_token hnode htoken, phrase, hrender]
      exact ⟨node.text, rfl, by rw [ink_text, hleaves]⟩
  | false =>
      have hsame : phrased columns format node level = phrased columns format inner level := by
        rw [phrased, phrased, unwrap_of_phrase hwrapper.isWrapperName hnode htoken]
      rwa [hsame]

/-- Both constructs are a keyword with what it controls. -/
theorem inks_construct {columns : Columns} {format : Formatter} {node keyword statement : Node}
    {kept : List Node} (hplain : node.Plain)
    (hkind : node.kind? = some .alwaysConstruct ∨ node.kind? = some .initialConstruct)
    (hnode : node.children = [keyword, statement]) {level : Int}
    (hstatement : Inks (timedBody format statement level []) kept) :
    Inks (phrased columns format node level) (keyword :: kept) := by
  rcases hkind with hkind | hkind
  · rw [phrased_of_kind hkind rfl rfl]
    exact inks_procedural hplain hnode hstatement
  · rw [phrased_of_kind hkind rfl rfl]
    exact inks_procedural hplain hnode hstatement

/-- Every kind of statement keeps its leaves if `format` does for the statements inside. The
induction is on the height, since `body` may look through the wrappers of a statement. -/
theorem inks_phrased (columns : Columns) (format : Formatter) (bound : Nat) :
    ∀ {node kept}, Procedural node kept → node.Plain → node.height ≤ bound →
      (∀ {inner leaves}, Procedural inner leaves → inner.Plain → inner.height < node.height →
        ∀ level, Inks (format inner level none) leaves) →
      ∀ level, Inks (phrased columns format node level) kept := by
  induction bound with
  | zero => exact fun {node} _ _ _ hheight => absurd (height_pos node) (by omega)
  | succ bound ih =>
      intro node kept h hplain hheight hformat level
      -- What is known of a statement inside: it is formatted, and it follows a header.
      have hinside : ∀ {statement leaves}, statement.height < node.height → statement.Plain →
          Procedural statement leaves →
          (∀ level, Inks (phrased columns format statement level) leaves) ∧
          (∀ level, Inks (format statement level none) leaves) ∧
          BodyInks format statement leaves := by
        intro statement leaves hlt hstatementPlain hstatement
        have hphrased : ∀ level, Inks (phrased columns format statement level) leaves :=
          ih hstatement hstatementPlain (by omega) fun hinner hinnerPlain hinnerHeight =>
            hformat hinner hinnerPlain (by omega)
        have hformatted := hformat hstatement hstatementPlain hlt
        refine ⟨hphrased, hformatted, bodyInks hstatementPlain hphrased hformatted fun hopens => ?_⟩
        rw [opensBlock, Bool.and_eq_true] at hopens
        exact hstatement.terminator_eq_none (is_eq_false_of_is block_ne_assignment hopens.1)
      have hchild : ∀ {statement leaves}, statement ∈ node.children →
          Procedural statement leaves →
          (∀ level, Inks (phrased columns format statement level) leaves) ∧
          (∀ level, Inks (format statement level none) leaves) ∧
          BodyInks format statement leaves :=
        fun hmem => hinside (height_lt_of_mem hmem) (Within.children hplain _ hmem)
      have hkeyword : ∀ {keyword : Node} {lexeme : Text}, IsWritten lexeme keyword →
          lexeme ≠ "(" → keyword.isLexeme "(" = false :=
        fun hwritten hne => isLexeme_ne hwritten.1 hne
      obtain ⟨fuel, hfuel⟩ : ∃ fuel, node.height = fuel + 1 :=
        ⟨node.height - 1, by have := height_pos node; omega⟩
      cases h with
      | assigned h => exact inks_assigned h hplain level
      | null hkind hwritten =>
          rw [phrased, unwrap_of_not_wrapper (isWrapperName_of_none hkind), phrase, hkind]
          exact ⟨node.text, rfl, by rw [inkOf_cons, inkOf_nil, List.append_nil]⟩
      | wrapper hwrapper hnode hinner =>
          exact inks_wrapper hwrapper hnode hinner ((hchild (by simp [hnode]) hinner).1 level)
      | dropped hcollapsible hnode hstatement =>
          rw [phrased_of_kind (of_isCollapsible hcollapsible).1 rfl rfl]
          exact inks_dropped hcollapsible hnode ((hchild (by simp [hnode]) hstatement).2.1 level)
      | block hkind hcollapsible hnode hfirst hlabel hlast hstatements =>
          rw [phrased_of_kind hkind rfl rfl]
          show Inks (seqBlock format node level) _
          rw [seqBlock_of_not_collapsible format hcollapsible]
          refine inks_block hplain hnode hfirst hlabel hlast
            (fun statement hmem => (hstatements statement hmem).isLexeme_eq_false (by decide))
            fun statement hmem => ?_
          exact (hchild (by simp [hnode, hmem]) (hstatements statement hmem)).2.1 _
      | condition hkind hnode hif hopening he hclosing hstatement =>
          rw [phrased_of_kind hkind rfl rfl, hfuel]
          exact inks_condition hplain hnode (hkeyword hif (by decide)) hopening he hclosing
            (hchild (by simp [hnode]) hstatement).2.2 fuel level
      | @alternative _ _ _ _ _ _ _ _ other _ hkind hnode hif hopening he hclosing hseparator
          hstatement hother =>
          obtain ⟨hphrased, -, hbody⟩ := hchild (by simp [hnode]) hother
          have hheight : other.height ≤ fuel := by
            have hlt := height_lt_of_mem (show other ∈ node.children by simp [hnode])
            omega
          rw [phrased_of_kind hkind rfl rfl, hfuel]
          refine inks_alternative hplain hnode (hkeyword hif (by decide)) hopening he hclosing
            hseparator (hchild (by simp [hnode]) hstatement).2.2
            (inks_elseBranch hheight (fun hconditional => ?_) hphrased hbody level)
          exact hother.terminator_eq_none
            (is_eq_false_of_is conditional_ne_assignment hconditional)
      | choice hkind hnode hlexeme hword hopening he hclosing hlast hitems =>
          rw [phrased_of_kind hkind rfl rfl]
          refine inks_choice hplain hnode (hkeyword hword ?_) hopening he hclosing hlast
            fun item hmem => (hchild (by simp [hnode, hmem]) (hitems item hmem)).2.1 _
          rintro rfl
          exact absurd hlexeme (by decide)
      | item hkind hnode hlabels hcolon hstatement =>
          obtain ⟨-, hformatted, hbody⟩ := hchild (by simp [hnode]) hstatement
          rw [phrased_of_kind hkind rfl rfl]
          exact inks_item hplain hnode hlabels hcolon (hformatted level) hbody
      | forLoop hkind hnode hword hopening hstart hsemicolon hcondition hsemicolon' hstep hclosing
          hstatement =>
          rw [phrased_of_kind hkind rfl rfl]
          exact inks_forLoop hplain hnode (hkeyword hword (by decide)) hopening hstart hsemicolon
            hcondition hsemicolon' hstep hclosing (hchild (by simp [hnode]) hstatement).2.2 level
      | whileLoop hkind hnode hlexeme hword hopening he hclosing hstatement =>
          rw [phrased_of_kind hkind rfl rfl]
          refine inks_whileLoop hplain hnode (hkeyword hword ?_) hopening he hclosing
            (hchild (by simp [hnode]) hstatement).2.2 level
          rintro rfl
          exact absurd hlexeme (by decide)
      | forever hkind hnode hword hstatement =>
          rw [phrased_of_kind hkind rfl rfl]
          exact inks_forever hplain hnode (hkeyword hword (by decide))
            (hchild (by simp [hnode]) hstatement).2.2 level
      | timed hkind hnode hcontrol hstatement =>
          obtain ⟨-, hformatted, hbody⟩ := hchild (by simp [hnode]) hstatement
          rw [phrased_of_kind hkind rfl rfl]
          exact inks_timed hplain hnode (hformatted level) hbody
      | @construct _ _ _ statement _ hkind hnode _ _ hstatement =>
          have hmem : statement ∈ node.children := by simp [hnode]
          have hstatementPlain : statement.Plain := Within.children hplain statement hmem
          refine inks_construct hplain hkind hnode (inks_timedBody hstatementPlain hstatement
            (hchild hmem hstatement).2.2 (fun timed leaves hinner htimed => ?_) level)
          -- What is timed stands below the statement, so it is one of those inside.
          have hlt := height_lt_of_mem hmem
          have hle := height_unwrap_le statement
          have hlt' := height_lt_of_mem hinner
          exact (hinside (by omega)
            (Within.children (within_unwrap hstatementPlain).1 timed hinner) htimed).2.2

/-- A statement at a level keeps its leaves if the fuel bounds its height. -/
theorem inks_formatAt (columns : Columns) (fuel : Nat) {node : Node} {kept : List Node}
    (h : Procedural node kept) (hplain : node.Plain) (hheight : node.height ≤ fuel) (level : Int) :
    Inks (formatAt columns fuel node level none) kept := by
  induction fuel generalizing node kept level with
  | zero => exact absurd (height_pos node) (by omega)
  | succ fuel ih =>
      refine Inks.formatWith (inks_phrased columns (formatAt columns fuel) (fuel + 1) h hplain
        hheight (fun hinner hinnerPlain hlt level => ?_) level) hplain false
      exact ih hinner hinnerPlain (by omega) level

end Render

namespace Node

open Render

/-- Procedural code is formatted at every level, and the text has the ink of its leaves in their
order, but for the `begin` and `end` of blocks that can be dropped. -/
theorem format_keeps_tokens (columns : Columns) {node : Node} {kept : List Node}
    (h : Procedural node kept) (hplain : node.comments = []) (level : Int) :
    ∃ text, format columns false node level none = pure text ∧ text.ink = inkOf kept :=
  (inks_phrased columns (formatAt columns node.height) node.height h (plain_iff.2 hplain)
    (Nat.le_refl _) (fun hinner hinnerPlain hlt level =>
      inks_formatAt columns _ hinner hinnerPlain (Nat.le_of_lt hlt) level) level).formatWith
    (plain_iff.2 hplain) false

/-- An assignment at an edge of a clock, in a block that is dropped. -/
def clockedBlock : Node :=
  let assignment : Node :=
    { name := "blocking_assignment"
      children := [
        { name := "IDENTIFIER", value := some ("x" : Text) },
        { name := "ASSIGN", value := some ("=" : Text) },
        { name := "NUMBER", value := some ("1" : Text) }] }
  let block : Node :=
    { name := "seq_block"
      children := [
        { name := "BEGIN", value := some ("begin" : Text) },
        { name := "statement",
          children := [assignment, { name := "SEMI", value := some (";" : Text) }] },
        { name := "END", value := some ("end" : Text) }] }
  let control : Node :=
    { name := "event_control"
      children := [
        { name := "AT", value := some ("@" : Text) },
        { name := "IDENTIFIER", value := some ("c" : Text) }] }
  { name := "always_construct"
    children := [
      { name := "ALWAYS", value := some ("always" : Text) },
      { name := "statement"
        children := [
          { name := "procedural_timing_control_statement"
            children := [control, { name := "statement_or_null", children := [block] }] }] }] }

theorem clockedBlock_keeps_tokens :
    ∃ text, format Columns.standard false clockedBlock 1 none = pure text ∧
      text.ink = "always@cx=1;" := by
  have hfree : ∀ {name : Text} {lexeme : Text}, Lexeme.byName? name = none →
      IsWritten lexeme { name, value := some lexeme } :=
    fun hname => ⟨by simp [isLexeme, isToken, Node.lexeme], by simp [hname]⟩
  have hsemicolon : IsWritten ";" { name := "SEMI", value := some (";" : Text) } :=
    ⟨rfl, fun _ h => (Option.some.inj h).symm⟩
  have hall : Procedural clockedBlock _ :=
    .construct (.inl rfl) rfl List.mem_cons_self (hfree rfl) (.wrapper (.inl rfl) rfl
      (.timed rfl rfl rfl (.wrapper (.inr (.inl rfl)) rfl (.dropped rfl rfl
        (.assigned (.ended (.inl rfl) rfl hsemicolon (.phrase rfl rfl)))))))
  obtain ⟨text, htext, hink⟩ := format_keeps_tokens Columns.standard hall rfl 1
  exact ⟨text, htext, hink.trans (by decide +kernel)⟩

end Node
end VerilogLayout

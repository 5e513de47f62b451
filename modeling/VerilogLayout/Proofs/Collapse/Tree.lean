import VerilogLayout.Proofs.Collapse.Choice
import VerilogLayout.Proofs.Collapse.Module

/-!
# Formatting without the blocks that are dropped

A layout leaves the `begin` and `end` of some blocks out, so the text it writes is the text of
another tree. `formatTree_collapse` says that this tree is written the same, if the blocks that are
left out stand where statements do and keep no other block from being left out, as the inner one of
two blocks does in `formatTree_collapse_ne_nested`. The steps are `phrase_collapse` for a phrase
that stays, `formatWith_of_drop` for a block that is dropped, and `agrees_formatAt` for any number
of phrases in each other. -/

namespace VerilogLayout.Render

open Node

/-! ## Lines -/

/-- The text of a line: with a line feed behind it if it `ends` and is not empty. -/
def lineEnded (ends : Bool) (text : Text) : Text :=
  if ends && !text.isEmpty && !endsLine text then text ++ "\n" else text

/-- The text of a line with its indentation, unless it is `flush` or has none. -/
def indented (flush : Bool) (level : Int) (text : Text) : Text :=
  if flush || text.isEmpty || Text.startsWith text "\n" then text else indentFor level ++ text

/-- The place of a text depends on the wrappers and the kind of its node only. -/
theorem placed_eq (root : Bool) (node : Node) (level : Int) (body : Text) :
    placed root node level body =
      lineEnded (root || (node.unwrap.wrappers ++ [node.unwrap.inner]).any (·.is Kind.isMajor))
        (indented (root || node.unwrap.inner.is Kind.indentsItself) level body) :=
  rfl

/-- A text ends its line if its last character is a line feed. -/
theorem endsLine_iff {text : Text} : endsLine text ↔ text.getLast? = some (.char '\n') :=
  List.isSuffixOf_iff_suffix.trans List.singleton_suffix_iff_getLast?_eq_some

/-- A text starts a line if its first character is a line feed. -/
theorem startsWith_feed_iff {text : Text} :
    Text.startsWith text "\n" ↔ text.head? = some (.char '\n') :=
  List.isPrefixOf_iff_prefix.trans List.singleton_prefix_iff_head?_eq_some

/-- A text ends its line as its last part does. -/
theorem endsLine_append (front : Text) {text : Text} (h : text ≠ []) :
    endsLine (front ++ text) = endsLine text := by
  obtain ⟨c, hlast⟩ := Option.ne_none_iff_exists'.1 (mt List.getLast?_eq_none_iff.1 h)
  rw [Bool.eq_iff_iff, endsLine_iff, endsLine_iff, List.getLast?_append, hlast, Option.some_or]

/-- A text starts a line as its first part does. -/
theorem startsWith_feed_append {text : Text} (h : text ≠ []) (back : Text) :
    Text.startsWith (text ++ back) "\n" = Text.startsWith text "\n" := by
  obtain ⟨c, rest, rfl⟩ := List.exists_cons_of_ne_nil h
  rw [Bool.eq_iff_iff, startsWith_feed_iff, startsWith_feed_iff]
  rfl

/-- Only an indentation is stripped. -/
theorem stripIndent_of_head {text : Text} (h : text.head? ≠ some (.char ' ')) (level : Int) :
    stripIndent text level = text := by
  have hspaces : ∀ n, Text.startsWith text (Text.spaces n) → n = 0 := by
    intro n hn
    cases n with
    | zero => rfl
    | succ n =>
        obtain ⟨rest, rfl⟩ := List.isPrefixOf_iff_prefix.1 hn
        exact absurd rfl h
  unfold stripIndent
  dsimp only
  split
  · next hstarts =>
      have hzero := hspaces _ hstarts
      rw [indentFor, hzero]
      rfl
  · rfl

/-- An indentation is taken away again. -/
theorem stripIndent_indentFor_append (text : Text) (level : Int) :
    stripIndent (indentFor level ++ text) level = text := by
  have hstarts : Text.startsWith (indentFor level ++ text) (indentFor level) :=
    List.isPrefixOf_iff_prefix.2 (List.prefix_append _ _)
  rw [stripIndent, if_pos hstarts, List.drop_left]

/-- Stripping a line gives its text back, perhaps with a line feed that was added. -/
theorem stripIndent_line (ends : Bool) (text : Text) (level : Int) :
    stripIndent (lineEnded ends (indented false level text)) level = text ∨
      text ≠ [] ∧ endsLine text = false ∧
        stripIndent (lineEnded ends (indented false level text)) level = text ++ "\n" := by
  unfold indented
  split
  · next hflush =>
      have hhead : text.head? ≠ some (.char ' ') := by
        rw [Bool.false_or, Bool.or_eq_true, startsWith_feed_iff, List.isEmpty_iff] at hflush
        rcases hflush with rfl | hfeed
        · simp
        · simp [hfeed]
      unfold lineEnded
      split
      · next hends =>
          simp only [Bool.and_eq_true, Bool.not_eq_true', List.isEmpty_eq_false_iff] at hends
          obtain ⟨⟨-, hne⟩, hline⟩ := hends
          refine .inr ⟨hne, hline, stripIndent_of_head ?_ level⟩
          rwa [List.head?_append, Option.or_of_isSome]
          rw [List.isSome_head?]
          simpa using hne
      · exact .inl (stripIndent_of_head hhead level)
  · next hflush =>
      rw [Bool.false_or, Bool.or_eq_true, not_or, List.isEmpty_iff] at hflush
      unfold lineEnded
      split
      · next hends =>
          simp only [Bool.and_eq_true, Bool.not_eq_true', endsLine_append _ hflush.1] at hends
          rw [List.append_assoc, stripIndent_indentFor_append]
          exact .inr ⟨hflush.1, hends.2, rfl⟩
      · exact .inl (stripIndent_indentFor_append text level)

/-- A line feed that was added in front is not added again. -/
theorem lineEnded_indented_feed {text : Text} (hne : text ≠ []) (hline : endsLine text = false)
    (flush : Bool) (level : Int) :
    lineEnded true (indented flush level (text ++ "\n")) =
      lineEnded true (indented flush level text) := by
  have hempty : (text ++ "\n" : Text).isEmpty = text.isEmpty := by
    cases text with
    | nil => exact absurd rfl hne
    | cons c rest => rfl
  have hindented : indented flush level (text ++ "\n") = indented flush level text ++ "\n" := by
    unfold indented
    rw [hempty, startsWith_feed_append hne]
    split
    · rfl
    · rw [List.append_assoc]
  have hends : endsLine (indented flush level text) = false := by
    unfold indented
    split
    · exact hline
    · rw [endsLine_append _ hne, hline]
  have hindentedNe : indented flush level text ≠ [] := by
    unfold indented
    split
    · exact hne
    · exact List.append_ne_nil_of_right_ne_nil _ hne
  have hfeed : endsLine (indented flush level text ++ "\n") = true := by
    rw [endsLine_append _ (by decide)]
    rfl
  rw [hindented, lineEnded, lineEnded, hfeed, hends]
  simp [hindentedNe]

/-- A line that is stripped and written again is written as its text. -/
theorem lineEnded_stripIndent (ends flush : Bool) (text : Text) (level : Int) :
    lineEnded true (indented flush level
        (stripIndent (lineEnded ends (indented false level text)) level)) =
      lineEnded true (indented flush level text) := by
  rcases stripIndent_line ends text level with hsame | ⟨hne, hline, hfeed⟩
  · rw [hsame]
  · rw [hfeed, lineEnded_indented_feed hne hline]

/-! ## Phrases that stay and blocks that do not -/

variable {format format' : Formatter} {n n' : Nat} (hagree : Agrees format format' n n')
include hagree

/-- A phrase that stays is written the same when the blocks in it are dropped. -/
theorem phrase_collapse (columns : Columns) {inner : Node} (h : Around n n' inner) (level : Int)
    (terminator : Option Node) :
    phrase columns format inner level terminator =
      phrase columns format' inner.collapse level terminator := by
  rw [phrase, phrase, h.kind?_collapse]
  cases hkind : inner.kind? with
  | none =>
      rw [h.framed.fixed (by rw [frontSize?, hkind])]
      rfl
  | some kind =>
      -- Only the kinds that hold statements change below themselves; every other phrase is its own
      -- collapse.
      cases kind with
      | sourceText =>
          have hsize : inner.frontSize? = some 0 := by rw [frontSize?, hkind]
          have hchildren : ∀ child ∈ inner.children, Laid n n' child :=
            fun child hchild => h.laid hsize hchild
          show sourceText format level true inner.children = sourceText format' level true _
          rw [h.children_collapse, sourceText_collapse hagree hchildren]
      | moduleDeclaration => exact moduleDeclaration_collapse hagree h hkind level
      | alwaysConstruct => exact procedural_collapse hagree h (.inl hkind) level
      | initialConstruct => exact procedural_collapse hagree h (.inr hkind) level
      | seqBlock => exact seqBlock_collapse hagree h hkind level
      | conditionalStatement | ifGenerateConstruct =>
          refine conditional_collapse hagree h ?_ (Nat.le_refl _) (Nat.le_refl _) level
          rw [is, hkind]
          rfl
      | caseStatement => exact caseStatement_collapse hagree h hkind level
      | caseItem => exact caseItem_collapse hagree h hkind level
      | loopStatement => exact loop_collapse hagree h (.inr (.inr (.inl hkind))) level
      | loopGenerateConstruct =>
          exact loop_collapse hagree h (.inr (.inr (.inr (.inl hkind)))) level
      | proceduralTimingControlStatement =>
          exact timingControl_collapse hagree h (.inr (.inr (.inr (.inr hkind)))) level
      | generateRegion => exact keywordBlock_collapse hagree h (.inl hkind) level
      | functionDeclaration => exact keywordBlock_collapse hagree h (.inr (.inl hkind)) level
      | taskDeclaration => exact keywordBlock_collapse hagree h (.inr (.inr hkind)) level
      | generateBlock => exact generateBlock_collapse hagree h hkind level
      | _ =>
          rw [h.framed.fixed (by rw [frontSize?, hkind])]
          rfl

/-- A node whose phrase stays is written the same when the blocks in it are dropped. -/
theorem formatWith_of_stay (columns : Columns) (root : Bool) {node : Node}
    (hplain : node.Plain) (hstay : Stay node.unwrap node.collapse.unwrap)
    (haround : Around n n' node.unwrap.inner) (level : Int) {given : Option Node}
    (hgiven : ∀ token ∈ given, token.Plain) :
    formatWith columns format root node level given =
      formatWith columns format' root node.collapse level given := by
  have hkind := haround.kind?_collapse
  have hterminated : terminated node.unwrap.inner.collapse = terminated node.unwrap.inner := by
    funext level terminator body
    unfold terminated
    rw [hkind]
  have hplaced : placed root node.collapse level = placed root node level := by
    funext body
    have hends := hstay.endsLine_eq
    rw [endsLineAmong, endsLineAmong] at hends
    rw [placed_eq, placed_eq, hstay.inner_eq, is, is, hkind, List.any_append, List.any_append,
      hends]
    simp only [List.any_cons, List.any_nil, is, hkind]
  rw [formatWith_plain columns format root hplain level hgiven,
    formatWith_plain columns format' root (within_collapse hplain) level hgiven, hplaced,
    hstay.inner_eq, hstay.terminator_eq, hterminated, phrase_collapse hagree columns haround]

omit hagree

/-- An assignment without comments is written as its text and its terminator. -/
theorem formatWith_assignment (columns : Columns) (format : Formatter) (root : Bool) {node : Node}
    (hplain : node.Plain) (hkind : node.unwrap.inner.is Kind.isSimpleAssignment) (level : Int) :
    formatWith columns format root node level none =
      pure (placed root node level
        (node.unwrap.inner.text ++ terminatorText node.unwrap.terminator)) := by
  obtain ⟨hinner, hterminator, -⟩ := within_unwrap hplain
  rw [formatWith_plain columns format root hplain level (by simp)]
  show _ <$> phrase columns format node.unwrap.inner level node.unwrap.terminator = _
  rw [phrase_of_isSimpleAssignment format columns hinner hkind level hterminator, map_pure]
  show pure (placed root node level (terminated node.unwrap.inner level node.unwrap.terminator _)) =
    _
  rw [terminated_of_isSimpleAssignment hkind]

/-- A block that is dropped is written like its statement. -/
theorem formatWith_of_drop (columns : Columns) (format' : Formatter) (fuel : Nat) (root : Bool)
    {node : Node} (hplain : node.Plain) (hdrop : Drop root node.unwrap node.collapse.unwrap)
    (hheight : node.height ≤ fuel + 1) (level : Int) :
    formatWith columns (formatAt columns fuel) root node level none =
      formatWith columns format' root node.collapse level none := by
  obtain ⟨first, statement, last, hcollapsible, hchildren, -, hinner, hterminator⟩ :=
    hdrop.exists_block
  have hassignment := hdrop.isSimpleAssignment
  have hassignment' := hassignment
  rw [hinner] at hassignment'
  have hmem : statement ∈ node.unwrap.inner.children := by simp [hchildren]
  have hstatement : statement.Plain := Within.children (within_unwrap hplain).1 statement hmem
  obtain ⟨fuel, rfl⟩ : ∃ k, fuel = k + 1 := by
    have hlt := height_lt_of_mem hmem
    have hle := height_unwrap_le node
    have hpos := height_pos statement
    exact ⟨fuel - 1, by omega⟩
  -- The dropped block writes its statement and takes the indentation off again; placing the block
  -- puts it back.
  have hphrase : phrase columns (formatAt columns (fuel + 1)) node.unwrap.inner level none =
      pure (stripIndent (placed false statement level
        (statement.unwrap.inner.text ++ terminatorText statement.unwrap.terminator)) level) := by
    rw [phrase, (of_isCollapsible hcollapsible).1]
    show seqBlock (formatAt columns (fuel + 1)) node.unwrap.inner level = _
    rw [seqBlock_of_collapsible _ hchildren hcollapsible, formatAt,
      formatWith_assignment columns _ false hstatement hassignment', pure_bind]
  have hmajor : (root || (node.unwrap.wrappers ++ [node.unwrap.inner]).any (·.is Kind.isMajor)) =
      true := by
    rw [List.any_append, List.any_cons, hdrop.is_before]
    simp [Kind.isMajor]
  have hmajor' : (root || (node.collapse.unwrap.wrappers ++ [node.collapse.unwrap.inner]).any
      (·.is Kind.isMajor)) = true := by
    rw [List.any_append, ← Bool.or_assoc]
    exact Bool.or_eq_true_iff.2 (.inl hdrop.endsLine)
  have hflush : node.unwrap.inner.is Kind.indentsItself = false := hdrop.is_before _
  have hflush' : node.collapse.unwrap.inner.is Kind.indentsItself = false :=
    is_eq_of_isSimpleAssignment hassignment rfl rfl
  have hflush'' : statement.unwrap.inner.is Kind.indentsItself = false :=
    is_eq_of_isSimpleAssignment hassignment' rfl rfl
  rw [formatWith_assignment columns format' root (within_collapse hplain) hassignment,
    formatWith_plain columns _ root hplain level (by simp), hdrop.terminator_eq_none, hinner,
    hterminator]
  show _ <$> phrase columns (formatAt columns (fuel + 1)) node.unwrap.inner level none = _
  rw [hphrase, map_pure]
  show pure (placed root node level _) = _
  rw [placed_eq root, placed_eq root, hmajor, hmajor', hflush, hflush', placed_eq false, hflush'']
  rw [Bool.or_false]
  exact congrArg pure (lineEnded_stripIndent _ root _ level)

/-- A node at a level is written the same when the blocks in it are dropped. -/
theorem formatWith_collapse (columns : Columns) {fuel : Nat}
    (hagree : Agrees (formatAt columns fuel) format' fuel n') (root : Bool) {node : Node}
    (h : Inside (fuel + 1) (n' + 1) node) {given : Option Node}
    (hsettled : Settled root given.isSome node) (hgiven : ∀ token ∈ given, token.Plain)
    (level : Int) :
    formatWith columns (formatAt columns fuel) root node level given =
      formatWith columns format' root node.collapse level given := by
  rcases hsettled.unwrap with ⟨hclosed, hdrop⟩ | hstay
  · obtain rfl : given = none := by simpa using hclosed
    exact formatWith_of_drop columns format' fuel root h.plain hdrop h.height_le level
  · refine formatWith_of_stay hagree columns root h.plain hstay ?_ level hgiven
    have hle := height_unwrap_le node.collapse
    rw [hstay.inner_eq] at hle
    exact
      { plain := (within_unwrap h.plain).1
        height_le := Nat.le_trans (height_unwrap_le node) h.height_le
        height_collapse_le := Nat.le_trans hle h.height_collapse_le
        framed := hstay.framed }

/-- Nodes at a level are written the same when the blocks in them are dropped, whatever the fuels
are. -/
theorem agrees_formatAt (columns : Columns) (fuel fuel' : Nat) :
    Agrees (formatAt columns fuel) (formatAt columns fuel') fuel fuel' := by
  induction fuel generalizing fuel' with
  | zero =>
      intro node given h
      have hpos := height_pos node
      have hle := h.height_le
      omega
  | succ fuel ih =>
      intro node given h hsettled hgiven level
      obtain ⟨fuel', rfl⟩ : ∃ k, fuel' = k + 1 := by
        have hpos := height_pos node.collapse
        have hle := h.height_collapse_le
        exact ⟨fuel' - 1, by omega⟩
      exact formatWith_collapse columns (ih fuel') false h hsettled hgiven level

end VerilogLayout.Render

namespace VerilogLayout.Node

open Render

/-- The formatted text of a tree is the formatted text of the tree without the blocks that the
layout leaves out, if these stand in the places of statements. -/
theorem formatTree_collapse (columns : Columns) {root : Node} (hplain : root.comments = [])
    (h : Settled true false root) : formatTree columns root.collapse = formatTree columns root := by
  have hroot : root.Plain := plain_iff.2 hplain
  have hinside : Inside (root.height + 1) (root.collapse.height + 1) root :=
    ⟨hroot, Nat.le_succ _, Nat.le_succ _⟩
  have hsettled : Settled true (none : Option Node).isSome root := h
  have hformat : format columns true root 0 none = format columns true root.collapse 0 none :=
    formatWith_collapse columns (agrees_formatAt columns root.height root.collapse.height) true
      hinside hsettled (by simp) 0
  have hcomments : root.collapse.comments = root.comments := by
    rw [plain_iff.1 hinside.plain_collapse, hplain]
  rw [formatTree, formatTree, formatTreeCounted, formatTreeCounted, formatWhole, formatWhole,
    ← hformat, hcomments]

/-- An assignment with its semicolon. -/
def unitAssignment : Node :=
  { name := "statement"
    children := [
      { name := "blocking_assignment"
        children := [
          { name := "IDENTIFIER", value := some ("x" : Text) },
          { name := "ASSIGN", value := some ("=" : Text) },
          { name := "NUMBER", value := some ("1" : Text) }] },
      { name := "SEMI", value := some (";" : Text) }] }

/-- A block around one statement. -/
def blockAround (statement : Node) : Node :=
  { name := "statement"
    children := [
      { name := "seq_block"
        children := [
          { name := "BEGIN", value := some ("begin" : Text) },
          statement,
          { name := "END", value := some ("end" : Text) }] }] }

/-- A construct around one statement. -/
def initialAround (statement : Node) : Node :=
  { name := "initial_construct"
    children := [{ name := "INITIAL", value := some ("initial" : Text) }, statement] }

theorem formatTree_collapse_block :
    formatTree Columns.standard (initialAround (blockAround unitAssignment)).collapse =
      formatTree Columns.standard (initialAround (blockAround unitAssignment)) := by
  have hword : unitAssignment.HasWord :=
    ⟨{ name := "IDENTIFIER", value := some ("x" : Text) }, by decide, by decide⟩
  have hblock : Settled false false (blockAround unitAssignment) :=
    .wrapper rfl rfl rfl (.dropped rfl rfl rfl hword rfl)
  have hbehind : ∀ child ∈ [blockAround unitAssignment], Settled false false child := by
    simpa using hblock
  exact formatTree_collapse Columns.standard rfl (.phrase rfl rfl rfl (by decide) hbehind)

/-- A phrase without a layout around one statement. -/
def parallelAround (statement : Node) : Node :=
  { name := "statement"
    children := [
      { name := "par_block"
        children := [
          { name := "FORK", value := some ("fork" : Text) },
          statement,
          { name := "JOIN", value := some ("join" : Text) }] }] }

/-- A block keeps its `begin` and `end` in a phrase that is written as it stands. -/
theorem formatTree_collapse_ne_parallel :
    ¬ ∀ (columns : Columns) (root : Node), root.comments = [] →
      formatTree columns root.collapse = formatTree columns root := by
  intro h
  have hparallel := h Columns.standard
    (initialAround (parallelAround (blockAround unitAssignment))) rfl
  exact absurd hparallel (by decide +kernel)

/-- Of two blocks in each other the formatted text keeps the outer one, which is dropped when the
formatted text is formatted again: without the block inside it can be dropped itself. -/
theorem formatTree_collapse_ne_nested :
    formatTree Columns.standard (initialAround (blockAround (blockAround unitAssignment))) =
        .ok "initial begin\n    x = 1;\nend\n" ∧
      formatTree Columns.standard
          (initialAround (blockAround (blockAround unitAssignment))).collapse =
        .ok "initial\n    x = 1;\n" := by
  decide +kernel

end VerilogLayout.Node

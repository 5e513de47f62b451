import VerilogLayout.Proofs.Comments.Standing
import VerilogLayout.Proofs.LineEnd.Closed
import VerilogLayout.Proofs.Procedural.Grammar
import VerilogLayout.Proofs.Source.Trim

/-!
# Tidy nodes

Some renderers leave their last line open behind a line comment. `Node.Tidy` says that nothing comes
to stand behind it: a phrase with a line comment in it that is written in such a way stands where
lines are ended, and neither it nor its wrappers have comments behind it. With the nodes that are
tidy, closed texts are a standing of comments, `Standing.closed`: comments at the end of a line are
closed once the line is ended, and those woven into a phrase are closed as they are.
-/

namespace VerilogLayout

namespace Node

/-- A line comment stands in a node. -/
def holdsLineComment (node : Node) : Bool :=
  node.comments.any Comment.isLine

/-- The last line of a phrase with its terminator may be left open behind a line comment. -/
def leavesLineOpen (node : Node) (terminator : Option Node) : Bool :=
  (node.is Kind.leavesLineOpen && node.holdsLineComment) || terminator.any holdsLineComment

/-- What leaves a line open and writes no terminator has its statement on its line. -/
theorem inlinesStatement_of_leavesLineOpen {node : Node} (h : node.is Kind.leavesLineOpen)
    (hwrites : ¬ node.is Kind.writesTerminator) : node.is Kind.inlinesStatement := by
  obtain ⟨kind, hkind, hopen⟩ := (Option.any_eq_true _ _).1 h
  rw [is, hkind, Option.any_some] at hwrites ⊢
  exact (Bool.or_eq_true_iff.1 hopen).resolve_left hwrites

/-- A node that ends its line. -/
def isMajor (node : Node) : Bool :=
  (node.unwrap.wrappers ++ [node.unwrap.inner]).any (·.is Kind.isMajor)

/-- The comments behind a node and its wrappers. -/
def allTrailing (node : Node) : List Comment :=
  node.unwrap.inner.trailing ++ wrapperTrailing node.unwrap.wrappers

/-- Nothing is put behind the last line of a node that may be left open. A comment behind a node
that has the index of one in front of it is not written, so it must not be the block comment that
lets the line go on. -/
structure IsClear (root : Bool) (node : Node) (given : Option Node) : Prop where
  ended : node.unwrap.inner.leavesLineOpen (given <|> node.unwrap.terminator) →
    (root || node.isMajor) ∧ node.allTrailing = []
  unterminated : node.unwrap.inner.is Kind.inlinesStatement →
    node.unwrap.inner.holdsLineComment → (given <|> node.unwrap.terminator) = none
  repeats : node.allTrailing.Pairwise fun first other => first.index = other.index → other.isLine

instance (root : Bool) (node : Node) (given : Option Node) : Decidable (IsClear root node given) :=
  decidable_of_iff ((_ → _) ∧ (_ → _ → _) ∧ _)
    ⟨fun h => ⟨h.1, h.2.1, h.2.2⟩, fun h => ⟨h.ended, h.unterminated, h.repeats⟩⟩

/-- Nothing is put behind the last lines that may be left open, of a node and of those inside. -/
inductive Tidy : Bool → Node → Option Node → Prop where
  | node {root : Bool} {node : Node} {given : Option Node} (clear : IsClear root node given)
      (inside : ∀ child ∈ node.unwrap.inner.children, Tidy false child none)
      (entries : node.unwrap.inner.is Kind.isHeadList →
        ∀ group ∈ node.unwrap.inner.headEntries, ∀ entry ∈ group.items,
          Tidy false entry group.separator) :
      Tidy root node given

namespace Tidy

variable {root : Bool} {node : Node} {given : Option Node}

/-- A node without a list of ports or parameters. -/
theorem plain (clear : IsClear root node given)
    (inside : ∀ child ∈ node.unwrap.inner.children, Tidy false child none)
    (hlist : node.unwrap.inner.is Kind.isHeadList = false) : Tidy root node given :=
  .node clear inside fun h => absurd h (Bool.eq_false_iff.1 hlist)

theorem clear (h : Tidy root node given) : IsClear root node given := by
  cases h
  assumption

theorem inside (h : Tidy root node given) :
    ∀ child ∈ node.unwrap.inner.children, Tidy false child none := by
  cases h
  assumption

theorem entries (h : Tidy root node given) (hlist : node.unwrap.inner.is Kind.isHeadList) :
    ∀ group ∈ node.unwrap.inner.headEntries, ∀ entry ∈ group.items,
      Tidy false entry group.separator := by
  cases h with
  | node _ _ hentries => exact hentries hlist

/-- A list in a module's head has no wrappers, so its entries are tidy with their commas. -/
theorem entries_of_isHeadList {list : Node} (h : Tidy root list given)
    (hlist : list.is Kind.isHeadList) :
    ∀ group ∈ list.headEntries, ∀ entry ∈ group.items, Tidy false entry group.separator := by
  have hwrapper : isWrapperName list.name = false := by
    obtain ⟨kind, hkind, hhead⟩ := (Option.any_eq_true _ _).1 hlist
    rw [isWrapperName_eq hkind]
    cases kind <;> first | rfl | cases hhead
  have hentries := h.entries
  rw [unwrap_of_not_wrapper hwrapper] at hentries
  exact hentries hlist

end Tidy
end Node

namespace Render

/-- Behind each line comment but the last one there is a line feed. -/
theorem closed_inlined (indent : Text) (comments : List Comment) :
    Closed comments (Ledger.inlined indent comments ++ "\n") := by
  suffices h : ∀ front done, Closed done front →
      Closed (done ++ comments) (Ledger.inlined.go indent front comments ++ "\n") from h [] [] .nil
  induction comments with
  | nil =>
      intro front done h
      simpa [Ledger.inlined.go] using h.before "\n"
  | cons comment comments ih =>
      intro front done h
      have hsplit : done ++ comment :: comments = done ++ [comment] ++ comments := by simp
      rw [hsplit, Ledger.inlined.go]
      generalize (if front.getLast? = some (.char '\n') then indent else (" " : Text)) = gap
      have hended : Closed (done ++ [comment]) (front ++ gap ++ comment.text ++ "\n") := by
        simpa using (h.before gap).append (Closed.single comment)
      split
      · exact ih _ _ hended
      · next hlast =>
          by_cases hline : comment.isLine
          · have hnil : comments = [] := by simpa [hline] using hlast
            subst hnil
            simpa [Ledger.inlined.go] using hended
          · refine ih _ _ ?_
            simpa using (h.before gap).append (Closed.block hline)

/-- Moving up an `else` takes a line feed away that no line comment needs. -/
theorem closed_beforeElse {taken : List Comment} {branch : Text} {isBlock : Bool} (level : Int)
    (hdelimited : ∀ c ∈ taken, c.IsDelimited) (h : Closed taken branch)
    (hline : isBlock → branch.getLast? = some (.char '\n')) :
    Closed taken (beforeElse branch isBlock level) := by
  unfold beforeElse
  split
  · next hblock =>
      obtain ⟨front, rfl⟩ := List.getLast?_eq_some_iff.1 (hline hblock.1)
      obtain ⟨-, hend⟩ := hblock
      rw [Text.dropLast, List.dropLast_concat] at hend ⊢
      refine (h.of_append_lineFeed hdelimited (Text.includes_of_not_mem (a := '/') ?_)).before _
      obtain ⟨before, behind, hsplit, hbefore, hbehind, -⟩ :=
        Text.exists_trim (Text.afterLast '\n' front)
      rw [hend] at hsplit
      rw [hsplit]
      intro hmem
      rcases List.mem_append.1 hmem with hmem | hmem
      · rcases List.mem_append.1 hmem with hmem | hmem
        · exact absurd (hbefore _ hmem) (by decide)
        · exact absurd hmem (by decide)
      · exact absurd (hbehind _ hmem) (by decide)
  · exact (h.before _).before _

end Render

/-- Comments stand in a text that is closed, and in a line that is closed once it is ended. -/
def Standing.closed : Standing where
  text := Closed
  line comments s := Closed comments (s ++ "\n")
  isGood := Comment.IsDelimited
  fits := Node.Tidy false
  code := .none
  comment c _ _ hline h := .comment c hline h
  append := .append
  opened h := h.before _
  append_line h hline := by
    rw [List.append_assoc]
    exact h.append hline
  ended := id
  inlined := Render.closed_inlined
  eq_nil hdelimited h := h.eq_nil hdelimited List.not_mem_nil
  trimSpaces hdelimited h := h.trimSpaces hdelimited
  stripIndent level _ _ hdelimited h := h.stripIndent hdelimited level
  dropLineFeeds hdelimited h := h.dropLineFeeds hdelimited
  beforeElse level _ _ _ := Render.closed_beforeElse level
  inside h := h.inside
  entries := .entries_of_isHeadList

end VerilogLayout

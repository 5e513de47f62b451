import VerilogLayout.Proofs.Comments.Keep
import VerilogLayout.Render.Instance

/-!
# The positions of connections

Connections without a name are told apart by the commas between them alone: `positions` are the
nodes between the commas of a list, none where a position is left open. A line is written for every
position that holds nodes, so an open position in front of another one is lost with its comma, and
every connection behind it moves up. `connectionLines_positions` says which positions are written,
and that they are those of the list if and only if no position but the last is open.
-/

namespace VerilogLayout

namespace Node

/-- The positions of a list: the nodes between its commas. -/
def positions (nodes : List Node) : List (List Node) :=
  nodes.splitOnP (isLexeme ",")

/-- Positions without the open ones in front of the last. -/
def keptPositions (positions : List (List Node)) : List (List Node) :=
  positions.dropLast.filter (!·.isEmpty) ++ positions.getLast?.toList

/-- Positions as they are cut off, each with whether a comma stands behind it. An open position at
the end is not cut off. -/
def cutPositions : List (List Node) → List (List Node × Bool)
  | [] => []
  | [last] => if last.isEmpty then [] else [(last, false)]
  | position :: next :: rest => (position, true) :: cutPositions (next :: rest)

/-- There is one position at least. -/
theorem positions_ne_nil (nodes : List Node) : positions nodes ≠ [] :=
  List.splitOnP_ne_nil _ _

/-- A comma ends a position, and any other node belongs to the first one. -/
theorem positions_cons (node : Node) (rest : List Node) :
    positions (node :: rest) =
      if node.isLexeme "," then [] :: positions rest
      else (positions rest).modifyHead (node :: ·) :=
  List.splitOnP_cons_eq_if_modifyHead _ _

/-- There is one position more than there are commas. -/
theorem length_positions (nodes : List Node) :
    (positions nodes).length = nodes.countP (isLexeme ",") + 1 := by
  induction nodes with
  | nil => rfl
  | cons node rest ih =>
      rw [positions_cons, List.countP_cons]
      split
      · rw [List.length_cons, ih]
      · rw [List.length_modifyHead, ih, Nat.add_zero]

/-- The groups of a list are its positions as they are cut off. -/
theorem groups_eq_cutPositions (nodes : List Node) :
    (groups "," nodes).map (fun group => (group.items, group.separator.isSome)) =
      cutPositions (positions nodes) := by
  induction nodes with
  | nil => rfl
  | cons node rest ih =>
      obtain ⟨position, others, hpositions⟩ := List.exists_cons_of_ne_nil (positions_ne_nil rest)
      rw [groups, positions_cons]
      rw [hpositions] at ih ⊢
      split
      · rw [List.map_cons, ih]
        rfl
      -- The node joins the first position, which may have been open.
      · rw [List.modifyHead_cons]
        cases hgroups : groups "," rest with
        | nil =>
            rw [hgroups] at ih
            cases others with
            | nil =>
                cases position with
                | nil => rfl
                | cons => cases ih
            | cons => cases ih
        | cons group more =>
            rw [hgroups] at ih
            cases others with
            | nil =>
                cases position with
                | nil => cases ih
                | cons first items =>
                    obtain ⟨hgroup, hmore⟩ := List.cons.inj ih
                    obtain ⟨hitems, hseparator⟩ := Prod.mk.inj hgroup
                    simp [cutPositions, hitems, hseparator, hmore]
            | cons next last =>
                obtain ⟨hgroup, hmore⟩ := List.cons.inj ih
                obtain ⟨hitems, hseparator⟩ := Prod.mk.inj hgroup
                simp [cutPositions, hitems, hseparator, hmore]

/-- All positions are kept if and only if none is open in front of the last. -/
theorem length_keptPositions_eq_iff {positions : List (List Node)} (hne : positions ≠ []) :
    (keptPositions positions).length = positions.length ↔ [] ∉ positions.dropLast := by
  have hlast : positions.getLast?.toList = [positions.getLast hne] := by
    rw [List.getLast?_eq_some_getLast hne, Option.toList_some]
  have hlength : positions.length = positions.dropLast.length + 1 := by
    rw [List.length_dropLast, Nat.sub_add_cancel (List.length_pos_iff.2 hne)]
  rw [keptPositions, List.length_append, hlast, List.length_singleton, hlength,
    Nat.add_right_cancel_iff, List.length_filter_eq_length_iff]
  constructor
  · intro h hmem
    exact absurd (h [] hmem) (by decide)
  · intro h position hmem
    cases position with
    | nil => exact absurd hmem h
    | cons => rfl

/-- Positions are all kept if only the last one may be empty. -/
theorem keptPositions_eq_self {positions : List (List Node)} (hne : positions ≠ [])
    (h : [] ∉ positions.dropLast) : keptPositions positions = positions := by
  rw [keptPositions, List.filter_eq_self.2, List.getLast?_eq_some_getLast hne, Option.toList_some,
    List.dropLast_concat_getLast hne]
  intro position hmem
  cases position with
  | nil => exact absurd hmem h
  | cons => rfl

/-- A comma is written behind every position but the last one, unless it is open. -/
theorem countP_cutPositions (positions : List (List Node)) :
    ((cutPositions positions).filter (!·.1.isEmpty)).countP (·.2) +
      positions.dropLast.countP List.isEmpty = positions.dropLast.length := by
  fun_induction cutPositions positions with
  | case1 => rfl
  | case2 => rfl
  | case3 last hempty =>
      rw [List.filter_cons, if_pos (by simpa using hempty)]
      rfl
  | case4 position next rest ih =>
      rw [List.dropLast_cons_cons, List.countP_cons, List.length_cons, List.filter_cons]
      cases position with
      | nil => exact congrArg (· + 1) ih
      | cons =>
          simp only [List.isEmpty_cons, Bool.not_false, if_true, List.countP_cons,
            Bool.false_eq_true, if_false, Nat.add_zero]
          omega

end Node

namespace Render

open Node

/-- A connection without the comma behind it. -/
def connectionBody (level column : Int) (nodes : List Node) : Text :=
  match nodes with
  | [item] =>
      if item.is Kind.isNamedConnection then
        Layout.connection (namedParts item).1 (namedParts item).2 (column + columnShift level 2) []
          (level * indentWidth)
      else joinedText nodes
  | _ => joinedText nodes

/-- A line with a connection. -/
structure ConnectionLine where
  body : Text
  /-- Whether a comma separates the connection from the next. -/
  isSeparated : Bool
  /-- The comments behind the connection and its comma. -/
  comments : List Comment

namespace ConnectionLine

/-- The comments of a line as they are written. -/
def behind (level : Int) (line : ConnectionLine) : Text :=
  Ledger.inlined (indentFor level) line.comments

/-- A line with a connection as it is written. -/
def text (level : Int) (line : ConnectionLine) : Text :=
  indentFor level ++ line.body ++ (if line.isSeparated then "," else "" : Text) ++
    line.behind level ++ "\n"

end ConnectionLine

/-- The positions that the lines of connections stand for. -/
def readPositions : List ConnectionLine → List Text
  | [] => [[]]
  | line :: rest =>
      if line.isSeparated then line.body :: readPositions rest
      else (readPositions rest).modifyHead (line.body ++ ·)

/-- A connection by name is laid out with its comma. -/
theorem connection_append (name value : Text) (column : Int) (comma : Text) (start : Int) :
    Layout.connection name value column comma start =
      Layout.connection name value column [] start ++ comma := by
  simp only [Layout.connection, Line.append, List.append_nil]

/-- A comma behind a connection is not part of its body. -/
theorem connectionBody_append (level column : Int) (item : Node) (others : List Node)
    (comma : Text) :
    (if others.isEmpty && item.is Kind.isNamedConnection then
        Layout.connection (namedParts item).1 (namedParts item).2 (column + columnShift level 2)
          comma (level * indentWidth)
      else joinedText (item :: others) ++ comma) =
      connectionBody level column (item :: others) ++ comma := by
  cases others with
  | nil =>
      rw [connectionBody, List.isEmpty_nil, Bool.true_and]
      split
      · exact connection_append _ _ _ _ _
      · rfl
  | cons => rfl

/-- A line is written for every group that holds nodes. -/
theorem exists_connectionLines_eq (level column : Int) (groups : List Group) (ledger : Ledger) :
    ∃ (lines : List ConnectionLine) (final : Ledger),
      connectionLines level column groups ledger =
        (.ok (lines.flatMap (ConnectionLine.text level)), final) ∧
      lines.map (fun line => (line.body, line.isSeparated)) =
        (groups.filter (!·.items.isEmpty)).map fun group =>
          (connectionBody level column group.items, group.separator.isSome) := by
  induction groups generalizing ledger with
  | nil => exact ⟨[], ledger, rfl, rfl⟩
  | cons group rest ih =>
      obtain ⟨_ | ⟨item, others⟩, separator⟩ := group
      · obtain ⟨lines, final, hrun, hlines⟩ := ih ledger
        exact ⟨lines, final, hrun, hlines⟩
      · let taken := Ledger.take (commentsAll (item :: others ++ separator.toList)) ledger
        obtain ⟨lines, final, hrun, hlines⟩ := ih taken.2
        refine ⟨{ body := connectionBody level column (item :: others)
                  isSeparated := separator.isSome
                  comments := taken.1 } :: lines, final, ?_, ?_⟩
        · have hcomments : endOfLine level (item :: others ++ separator.toList) ledger =
              (.ok (Ledger.inlined (indentFor level) taken.1), taken.2) := rfl
          unfold connectionLines
          simp only [bind_apply, hcomments, hrun, connectionBody_append]
          simp [pure_apply, ConnectionLine.text, ConnectionLine.behind]
        · simp [hlines]

/-- The lines of connections stand for the positions that are kept. -/
theorem readPositions_eq {body : List Node → Text} (hbody : body [] = [])
    {positions : List (List Node)} (hne : positions ≠ []) {lines : List ConnectionLine}
    (hlines : lines.map (fun line => (line.body, line.isSeparated)) =
      ((cutPositions positions).filter (!·.1.isEmpty)).map fun cut => (body cut.1, cut.2)) :
    readPositions lines = (keptPositions positions).map body := by
  fun_induction cutPositions positions generalizing lines with
  | case1 => exact absurd rfl hne
  | case2 last hempty =>
      obtain rfl := List.isEmpty_iff.1 hempty
      obtain rfl := List.map_eq_nil_iff.1 hlines
      simp [readPositions, keptPositions, hbody]
  | case3 last hempty =>
      rw [List.filter_cons, if_pos (by simpa using hempty), List.filter_nil, List.map_singleton]
        at hlines
      obtain ⟨line, rfl, hline⟩ := List.map_eq_singleton_iff.1 hlines
      obtain ⟨hbody, hopen⟩ := Prod.mk.inj hline
      simp [readPositions, keptPositions, hbody, hopen]
  | case4 position next rest ih =>
      have hkept : keptPositions (position :: next :: rest) =
          (if position.isEmpty then [] else [position]) ++ keptPositions (next :: rest) := by
        cases position <;> simp [keptPositions]
      rw [hkept]
      cases position with
      | nil => exact ih (List.cons_ne_nil _ _) hlines
      | cons node others =>
          obtain ⟨line, more, rfl, hline, hmore⟩ := List.map_eq_cons_iff.1 hlines
          obtain ⟨hbody, hseparated⟩ := Prod.mk.inj hline
          rw [readPositions, if_pos hseparated, hbody, ih (List.cons_ne_nil _ _) hmore]
          rfl

/-- The commas of a line are those of its body, of its comments and the one that separates it. -/
theorem count_comma_text (level : Int) (line : ConnectionLine) :
    (line.text level).count (.char ',') =
      line.body.count (.char ',') + (line.behind level).count (.char ',') +
        if line.isSeparated then 1 else 0 := by
  have hindent : (indentFor level).count (.char ',') = 0 := by
    rw [indentFor, Text.spaces, List.count_replicate]
    rfl
  have hfeed : ("\n" : Text).count (.char ',') = 0 := rfl
  have hcomma : (if line.isSeparated then "," else "" : Text).count (.char ',') =
      if line.isSeparated then 1 else 0 := by
    cases line.isSeparated <;> rfl
  rw [ConnectionLine.text]
  simp only [List.count_append, hindent, hfeed, hcomma]
  omega

/-- The commas of the lines are those of the connections and comments, and the separators. -/
theorem count_comma_lines (level : Int) (lines : List ConnectionLine) :
    (lines.flatMap (ConnectionLine.text level)).count (.char ',') =
      (lines.flatMap fun line => line.body ++ line.behind level).count (.char ',') +
        lines.countP ConnectionLine.isSeparated := by
  induction lines with
  | nil => rfl
  | cons line rest ih =>
      rw [List.flatMap_cons, List.count_append, count_comma_text, ih, List.flatMap_cons,
        List.count_append, List.count_append, List.countP_cons]
      omega

/-- The lines of connections stand for the positions of the list without the open ones in front of
the last. They have a separator for every comma if and only if there is no such position, and then
they stand for the positions of the list. -/
theorem connectionLines_positions (level column : Int) (nodes : List Node) (ledger : Ledger) :
    ∃ (lines : List ConnectionLine) (final : Ledger),
      connectionLines level column (groups "," nodes) ledger =
        (.ok (lines.flatMap (ConnectionLine.text level)), final) ∧
      (lines.flatMap (ConnectionLine.text level)).count (.char ',') =
        (lines.flatMap fun line => line.body ++ line.behind level).count (.char ',') +
          lines.countP ConnectionLine.isSeparated ∧
      readPositions lines =
        (keptPositions (positions nodes)).map (connectionBody level column) ∧
      lines.countP ConnectionLine.isSeparated + (positions nodes).dropLast.countP List.isEmpty =
        nodes.countP (isLexeme ",") ∧
      (lines.countP ConnectionLine.isSeparated = nodes.countP (isLexeme ",") ↔
        [] ∉ (positions nodes).dropLast) ∧
      (readPositions lines = (positions nodes).map (connectionBody level column) ↔
        [] ∉ (positions nodes).dropLast) := by
  obtain ⟨lines, final, hrun, hlines⟩ :=
    exists_connectionLines_eq level column (groups "," nodes) ledger
  have hne := positions_ne_nil nodes
  -- The lines are the cuts that are not empty, so that what is read back and what is counted are
  -- about one list.
  have hcut : lines.map (fun line => (line.body, line.isSeparated)) =
      ((cutPositions (positions nodes)).filter (!·.1.isEmpty)).map fun cut =>
        (connectionBody level column cut.1, cut.2) := by
    rw [hlines, ← groups_eq_cutPositions, List.filter_map, List.map_map]
    rfl
  have hread := readPositions_eq rfl hne hcut
  have hcount : lines.countP ConnectionLine.isSeparated +
      (positions nodes).dropLast.countP List.isEmpty = nodes.countP (isLexeme ",") := by
    have hflags := congrArg (List.countP (·.2)) hcut
    rw [List.countP_map, List.countP_map] at hflags
    have hall := countP_cutPositions (positions nodes)
    rw [List.length_dropLast, length_positions, Nat.add_sub_cancel] at hall
    rw [← hall]
    exact congrArg (· + _) hflags
  have hopen : (positions nodes).dropLast.countP List.isEmpty = 0 ↔
      [] ∉ (positions nodes).dropLast := by
    rw [List.countP_eq_zero]
    exact ⟨fun h hmem => h [] hmem rfl, fun h _ hmem hempty => h (List.isEmpty_iff.1 hempty ▸ hmem)⟩
  refine ⟨lines, final, hrun, count_comma_lines level lines, hread, hcount, ?_, ?_⟩
  · rw [← hopen]
    omega
  · rw [← length_keptPositions_eq_iff hne]
    constructor
    · intro hsame
      rw [hread] at hsame
      simpa using congrArg List.length hsame
    · intro hlength
      rw [hread, keptPositions_eq_self hne ((length_keptPositions_eq_iff hne).1 hlength)]

/-- A position that is left open between two connections is lost. -/
example : ((connectionLines 1 60 (groups "," [
      { name := "IDENTIFIER", value := some ("a" : Text) },
      { name := "COMMA", value := some ("," : Text) },
      { name := "COMMA", value := some ("," : Text) },
      { name := "IDENTIFIER", value := some ("b" : Text) }])).run {}).1 =
    .ok ("    a,\n    b\n" : Text) := by
  rfl

end Render
end VerilogLayout

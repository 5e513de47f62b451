import VerilogLayout.Proofs.Spacing.Lexeme

/-!
# Neighbours in a phrase

However a phrase nests, its text is the row of its lexemes, `text_eq_row`. So what stands between
two neighbours depends on them alone, and `neighbours_apart_iff` says when it is nothing: between
two words if a dollar sign stands where they meet, and between two operators if both stand alone,
also if a reader that takes the longest lexeme reads them as one then. `joinPieces_grouping` says of
all pieces what joining adds to them and when it depends on groups.
-/

namespace VerilogLayout

open Text

namespace Text

theorem isTight_of_forall {s : Text} (h : ∀ c ∈ s, isBlank c = false) : IsTight s :=
  ⟨fun c hc => h c (List.mem_of_head? hc), fun c hc =>
    h c (List.mem_reverse.1 (List.mem_of_head? hc))⟩

/-- Spaces around a tight text are trimmed, and nothing else. -/
theorem trimSpaces_append (m n : Nat) {s : Text} (h : s.IsTight) :
    trimSpaces (spaces m ++ s ++ spaces n) = s := by
  have hspaces : ∀ n, ∀ c ∈ spaces n, (c == ' ') = true := by
    intro n c hc
    rw [List.eq_of_mem_replicate hc]
    rfl
  have hstops : ∀ {t : Text}, Stops isBlank t → Stops (· == .char ' ') t := by
    intro t ht c hc
    have hblank := ht c hc
    cases hspace : c == ' ' with
    | false => exact hspace
    | true => exact absurd (Text.isBlank_of_beq_space hspace) (by simp [hblank])
  cases s with
  | nil =>
      have hall := List.forall_mem_append.2 ⟨hspaces m, hspaces n⟩
      rw [trimSpaces, trimWhile, List.append_nil, List.dropWhile_eq_nil_iff.2 hall]
      rfl
  | cons c s =>
      rw [trimSpaces, trimWhile, List.append_assoc,
        dropWhile_append (hspaces m) (stops_append_of_ne_nil (by simp) (hstops h.head) _),
        dropRightWhile, List.reverse_append, dropWhile_append _ (hstops h.last),
        List.reverse_reverse]
      exact fun c hc => hspaces n c (List.mem_reverse.1 hc)

end Text

namespace Leaf

/-- A row begins and ends with its lexemes. -/
theorem isTight_row {leaf : Leaf} {rest : List Leaf}
    (h : ∀ a ∈ leaf :: rest, a.lexeme.IsTight ∧ a.lexeme ≠ []) :
    (row (leaf :: rest)).IsTight := by
  induction rest generalizing leaf with
  | nil => exact (h leaf List.mem_cons_self).1
  | cons next rest ih =>
      obtain ⟨hleaf, hrest⟩ := List.forall_mem_cons.1 h
      have hne : row (next :: rest) ≠ [] := by
        obtain ⟨back, hback⟩ := row_cons next rest
        simp [hback, (hrest next List.mem_cons_self).2]
      refine ⟨?_, ?_⟩
      · rw [row, List.append_assoc]
        exact stops_append_of_ne_nil hleaf.2 hleaf.1.head _
      · rw [row, List.reverse_append]
        exact stops_append_of_ne_nil (by simpa using hne) (ih hrest).last _

/-! ## Gaps -/

/-- Two words are kept apart, unless one of them has a dollar sign where they meet. -/
theorem gap_pos_iff_of_isWord {a b : Leaf} (ha : Lexeme.IsWord a.lexeme)
    (hb : Lexeme.IsWord b.lexeme) :
    0 < gap a b ↔ a.lexeme.getLast? ≠ some (.char '$') ∧ b.lexeme.head? ≠ some (.char '$') := by
  have hpart : ∀ c, Lexeme.isWordPart c → (isWord c = true ↔ c ≠ '$') := by
    intro c hc
    have hdollar : isWord '$' = false := by decide +kernel
    refine ⟨?_, fun hne => ?_⟩
    · rintro hword rfl
      rw [hdollar] at hword
      cases hword
    · simpa [Lexeme.isWordPart, hne] using hc
  have hlast := List.getLast?_eq_some_getLast ha.1
  have hhead := List.head?_eq_some_head hb.1
  have hmargins : a.margin = 0 ∧ b.margin = 0 :=
    ⟨Lexeme.margin_eq_zero_of_isWord _ ha, Lexeme.margin_eq_zero_of_isWord _ hb⟩
  have hends := hpart _ (ha.2 _ (List.getLast_mem ha.1))
  have hstarts := hpart _ (hb.2 _ (List.head_mem hb.1))
  simp only [gap, hmargins, hlast, hhead, Option.any_some, hends, hstarts]
  split_ifs <;> simp_all

/-- An operator stands alone or has a space on both sides. -/
theorem margin_eq_zero_iff {leaf : Leaf} (h : leaf.lexeme ∈ Lexeme.operators) :
    leaf.margin = 0 ↔ leaf.IsAlone := by
  obtain ⟨place, name, value⟩ := leaf
  have hend : value ≠ Lexeme.endOfFile := by
    rintro rfl
    have hnone : ([] : Text) ∉ Lexeme.operators := by decide
    exact hnone h
  have hname : Lexeme.byName? name = none := by
    cases hname : Lexeme.byName? name with
    | none => rfl
    | some text =>
        have hfixed : ∀ entry ∈ Lexeme.fixed, entry.2 ∉ Lexeme.operators := by decide
        rw [lexeme, Lexeme.plain, if_neg hend, hname] at h
        exact absurd h (hfixed _ (Lexeme.mem_fixed_of_byName? hname))
  have hplain : Lexeme.plain name value = value := by
    rw [Lexeme.plain, if_neg hend, hname]
    rfl
  have hvalue : value ∈ Lexeme.operators := hplain ▸ h
  have hne : Lexeme.surrounded value ≠ value := by
    intro heq
    have hlength := congrArg List.length heq
    simp [Lexeme.surrounded] at hlength
    omega
  rw [margin, Lexeme.margin, hplain, IsAlone, lexeme, hplain]
  dsimp only
  by_cases hunary : value ∈ Lexeme.unary
  · have hspaced : Lexeme.spaced place name value = value := by
      rw [Lexeme.spaced, if_neg hend, hname]
      simp [hunary]
    simp [hspaced, hunary]
  · have hbinary : value ∈ Lexeme.binary := (List.mem_append.1 hvalue).resolve_right hunary
    -- No other rule of spacing is about an operator between two operands.
    have hother : value ∉ Lexeme.bare ++ Lexeme.alwaysSpaced := by
      have hall : ∀ s ∈ Lexeme.binary, s ∉ Lexeme.bare ++ Lexeme.alwaysSpaced := by decide
      exact hall value hbinary
    simp only [Lexeme.alwaysSpaced, List.mem_append, List.mem_cons, List.not_mem_nil, or_false,
      not_or] at hother
    obtain ⟨hbare, hquestion, hcolon, hequals, hle⟩ := hother
    have hspaced : Lexeme.spaced place name value =
        if value = "*" ∧ place.parent = some ("event_control" : Text) then value
        else Lexeme.spacedOperator place value := by
      rw [Lexeme.spaced, if_neg hend, hname]
      simp [hbare, hunary, hquestion, hcolon, hequals, hle, hbinary, -String.reduceToList]
    rw [hspaced]
    unfold Lexeme.spacedOperator
    split_ifs <;> simp_all

/-- Two operators are kept apart, unless both stand alone. -/
theorem gap_pos_iff_of_mem_operators {a b : Leaf} (ha : a.lexeme ∈ Lexeme.operators)
    (hb : b.lexeme ∈ Lexeme.operators) : 0 < gap a b ↔ ¬(a.IsAlone ∧ b.IsAlone) := by
  have hword : ∀ s ∈ Lexeme.operators, s.getLast?.any isWord = false := by decide +kernel
  have hmargins : gap a b = a.margin + b.margin := by
    rw [gap, hword _ ha, if_neg (by simp), Nat.add_zero]
  rw [hmargins, ← margin_eq_zero_iff ha, ← margin_eq_zero_iff hb]
  omega

/-! ## The longest lexeme -/

/-- A reader that takes the longest prefix in the class `p` takes `lexeme` off the text. -/
def Takes (p : Text → Prop) (lexeme text : Text) : Prop :=
  lexeme <+: text ∧ p lexeme ∧ ∀ longer, longer <+: text → p longer →
    longer.length ≤ lexeme.length

/-- A lexeme that its neighbour would make longer is taken if and only if they are apart. -/
theorem takes_iff {p : Text → Prop} (hspace : ∀ s, p s → .char ' ' ∉ s) {a b : Leaf}
    (rest : List Leaf)
    (ha : p a.lexeme) (hboth : p (a.lexeme ++ b.lexeme)) (hne : b.lexeme ≠ []) :
    Takes p a.lexeme (row (a :: b :: rest)) ↔ 0 < gap a b := by
  obtain ⟨after, hafter⟩ := row_cons b rest
  rw [row]
  constructor
  · rintro ⟨-, -, hlongest⟩
    by_contra hgap
    have hlonger := hlongest (a.lexeme ++ b.lexeme)
      ⟨after, by rw [Nat.eq_zero_of_not_pos hgap, hafter]; simp [spaces]⟩ hboth
    have hpos := List.length_pos_iff.2 hne
    rw [List.length_append] at hlonger
    omega
  · intro hgap
    obtain ⟨n, hn⟩ := Nat.exists_eq_add_of_lt hgap
    have hrow : a.lexeme ++ spaces (gap a b) ++ row (b :: rest) =
        a.lexeme ++ .char ' ' :: (spaces n ++ row (b :: rest)) := by
      rw [hn, Nat.zero_add, spaces, List.replicate_succ]
      simp [spaces]
    rw [hrow]
    refine ⟨List.prefix_append _ _, ha, fun longer hprefix hlonger => ?_⟩
    by_contra hlength
    -- A longer prefix would hold the space.
    obtain ⟨back, hback⟩ := List.prefix_of_prefix_length_le
      (List.prefix_append (a.lexeme ++ [.char ' ']) (spaces n ++ row (b :: rest)))
      (by simpa using hprefix) (by simp; omega)
    exact hspace longer hlonger (by simp [← hback])

end Leaf

namespace Node

mutual
/-- The leaves of a node at a place, from left to right. -/
def leavesAt (place : Lexeme.Place) : Node → List Leaf
  | ⟨name, value, children, _, _⟩ =>
      match children with
      | [] => [⟨place, name, value.getD []⟩]
      | _ :: _ => leavesAllAt name true place.inRange 0 children

/-- The leaves of the children of a node; `depth` counts the brackets that are open. -/
def leavesAllAt (parent : Text) (isFirst inRange : Bool) (depth : Int) : List Node → List Leaf
  | [] => []
  | node :: rest =>
      let depth := node.depthBefore depth
      let place := {
        parent := some parent
        isFirst
        inRange := inRange || decide (0 < depth) || node.is Kind.isRangeContext }
      leavesAt place node ++ leavesAllAt parent false inRange (node.depthAfter depth) rest
end

/-- The leaves of a node that stands alone. -/
def placedLeaves (node : Node) : List Leaf :=
  leavesAt { inRange := node.is Kind.isRangeContext } node

/-- The leaves of a node that stand for lexemes. -/
def lexedLeaves (node : Node) : List Leaf :=
  node.placedLeaves.filter fun leaf => !leaf.lexeme.isEmpty

/-! ## Phrases are rows of lexemes -/

mutual
/-- Joining at every level of a phrase is joining its leaves. -/
theorem spelledAt_eq_joinPieces (place : Lexeme.Place) : (node : Node) →
    ¬ Spacing.BlankBetweenWords ((leavesAt place node).map Leaf.spaced) →
    Id.run (spelledAt (fun _ => pure []) place node) =
      Spacing.joinPieces ((leavesAt place node).map Leaf.spaced)
  | ⟨name, value, [], leading, trailing⟩, _ => by
      simp [spelledAt, leavesAt, commentsInFront, commentsBehind, Spacing.joinPieces, Leaf.spaced]
  | ⟨name, value, child :: children, leading, trailing⟩, h => by
      obtain ⟨groups, hgroups, hflatten⟩ :=
        exists_spelledAll_eq name true place.inRange 0 (child :: children) h
      have hjoined := (Spacing.groupable_iff _).2 h groups hflatten
      simpa [spelledAt, leavesAt, hgroups, commentsInFront, commentsBehind, Spacing.joinPieces]
        using hjoined

/-- The texts of the children are joined from the leaves below each. -/
theorem exists_spelledAll_eq (parent : Text) (isFirst inRange : Bool) (depth : Int) :
    (nodes : List Node) →
    ¬ Spacing.BlankBetweenWords
      ((leavesAllAt parent isFirst inRange depth nodes).map Leaf.spaced) →
    ∃ groups : List (List Text),
      Id.run (spelledAll (fun _ => pure []) parent isFirst inRange depth nodes) =
        groups.map Spacing.joinPieces ∧
      groups.flatten = (leavesAllAt parent isFirst inRange depth nodes).map Leaf.spaced
  | [], _ => ⟨[], rfl, rfl⟩
  | node :: rest, h => by
      rw [leavesAllAt, List.map_append] at h ⊢
      obtain ⟨groups, hgroups, hflatten⟩ :=
        exists_spelledAll_eq parent false inRange _ rest (mt (·.prepend _) h)
      have hspelled := spelledAt_eq_joinPieces _ node (mt (·.append _) h)
      refine ⟨(leavesAt _ node).map Leaf.spaced :: groups, congrArg₂ List.cons hspelled hgroups, ?_⟩
      rw [List.flatten_cons, hflatten]
end

/-- The text of a phrase is that of its leaves joined, however it nests. -/
theorem text_eq_joinPieces {node : Node}
    (h : ¬ Spacing.BlankBetweenWords (node.placedLeaves.map Leaf.spaced)) :
    node.text = trimSpaces (Spacing.joinPieces (node.placedLeaves.map Leaf.spaced)) := by
  rw [placedLeaves, ← spelledAt_eq_joinPieces _ node h]
  rfl

/-- The text of a phrase is the row of its lexemes. -/
theorem text_eq_row {node : Node} (h : ∀ leaf ∈ node.placedLeaves, leaf.lexeme.IsTight) :
    node.text = Leaf.row node.lexedLeaves := by
  have hlexed : ∀ leaf ∈ node.lexedLeaves, leaf.lexeme.IsTight ∧ leaf.lexeme ≠ [] := by
    intro leaf hmem
    obtain ⟨hleaf, hne⟩ := List.mem_filter.1 hmem
    exact ⟨h leaf hleaf, by simpa using hne⟩
  -- Leaves without a lexeme are written as nothing.
  have hfilter : (node.placedLeaves.map Leaf.spaced).filter (fun piece => !piece.isEmpty) =
      node.lexedLeaves.map Leaf.spaced := by
    rw [List.filter_map]
    refine congrArg _ (List.filter_congr fun leaf _ => ?_)
    show (!leaf.spaced.isEmpty) = !leaf.lexeme.isEmpty
    by_cases hempty : leaf.lexeme = []
    · rw [hempty, Leaf.spaced, Lexeme.spaced_of_plain_eq_nil _ hempty]
    · have hspaced : leaf.spaced ≠ [] := by simp [Leaf.spaced_eq, hempty]
      rw [List.isEmpty_eq_false_iff.2 hempty, List.isEmpty_eq_false_iff.2 hspaced]
  have htext : node.text = trimSpaces (Spacing.joinPieces (node.lexedLeaves.map Leaf.spaced)) := by
    rw [← hfilter, Spacing.joinPieces_filter]
    refine text_eq_joinPieces (Spacing.not_blankBetweenWords fun piece hmem => ?_)
    obtain ⟨leaf, hleaf, rfl⟩ := List.mem_map.1 (List.mem_of_mem_tail hmem)
    exact Leaf.isSolid_spaced (h leaf hleaf)
  rw [htext]
  cases hleaves : node.lexedLeaves with
  | nil => rfl
  | cons leaf rest =>
      rw [hleaves] at hlexed
      obtain ⟨n, hn⟩ := Leaf.joinPieces_spaced hlexed
      rw [hn]
      exact trimSpaces_append _ _ (Leaf.isTight_row hlexed)

/-- The text of a phrase is its lexemes in a row, and of two neighbours: words are kept apart unless
a dollar sign stands where they meet, operators that make one operator are kept apart unless both
stand alone, and in either case they are apart if and only if a reader that takes the longest lexeme
takes the first of them. -/
theorem neighbours_apart_iff {node : Node} (h : ∀ leaf ∈ node.placedLeaves, leaf.lexeme.IsTight) :
    node.text = Leaf.row node.lexedLeaves ∧
      ∀ before a b after, node.lexedLeaves = before ++ a :: b :: after →
        (Lexeme.IsWord a.lexeme → Lexeme.IsWord b.lexeme →
          (0 < Leaf.gap a b ↔ a.lexeme.getLast? ≠ some (.char '$') ∧
            b.lexeme.head? ≠ some (.char '$')) ∧
          (Leaf.Takes Lexeme.IsWord a.lexeme (Leaf.row (a :: b :: after)) ↔ 0 < Leaf.gap a b)) ∧
        (a.lexeme ∈ Lexeme.operators → b.lexeme ∈ Lexeme.operators →
          a.lexeme ++ b.lexeme ∈ Lexeme.operators →
          (0 < Leaf.gap a b ↔ ¬(a.IsAlone ∧ b.IsAlone)) ∧
          (Leaf.Takes (· ∈ Lexeme.operators) a.lexeme (Leaf.row (a :: b :: after)) ↔
            0 < Leaf.gap a b)) := by
  refine ⟨text_eq_row h, fun before a b after hleaves => ⟨fun ha hb => ?_, fun ha hb hboth => ?_⟩⟩
  · have hword : Lexeme.IsWord (a.lexeme ++ b.lexeme) :=
      ⟨by simp [ha.1], List.forall_mem_append.2 ⟨ha.2, hb.2⟩⟩
    exact ⟨Leaf.gap_pos_iff_of_isWord ha hb,
      Leaf.takes_iff (fun _ => Lexeme.space_not_mem_of_isWord) after ha hword hb.1⟩
  · have hne : b.lexeme ≠ [] := by
      intro hempty
      rw [hempty] at hb
      exact absurd hb (by decide)
    exact ⟨Leaf.gap_pos_iff_of_mem_operators ha hb,
      Leaf.takes_iff Lexeme.space_not_mem_of_mem_operators after ha hboth hne⟩

/-- A system name behind a keyword, and an operator for a single operand behind another one. -/
def fusedPhrase : Node :=
  let reduction (operand : Node) : Node :=
    { name := "expression"
      children := [
        { name := "unary_operator",
          children := [{ name := "AMPERSAND", value := some ("&" : Text) }] },
        operand] }
  { name := "statement"
    children := [
      { name := "ELSE", value := some ("else" : Text) },
      { name := "SYSTEM_NAME", value := some ("$f" : Text) },
      reduction (reduction { name := "IDENTIFIER", value := some ("a" : Text) })] }

theorem neighbours_apart_iff_fusedPhrase :
    (∀ leaf ∈ fusedPhrase.placedLeaves, leaf.lexeme.IsTight) ∧ fusedPhrase.text = "else$f&&a" ∧
      ¬Leaf.Takes Lexeme.IsWord "else" "else$f&&a" := by
  have hsolid : ∀ leaf ∈ fusedPhrase.placedLeaves, ∀ c ∈ leaf.lexeme, isBlank c = false := by
    decide
  have htight : ∀ leaf ∈ fusedPhrase.placedLeaves, leaf.lexeme.IsTight :=
    fun leaf hleaf => isTight_of_forall (hsolid leaf hleaf)
  obtain ⟨htext, hneighbours⟩ := neighbours_apart_iff htight
  have hword : ∀ s ∈ (["else", "$f"] : List Text), Lexeme.IsWord s := by
    decide +kernel
  obtain ⟨hgap, htakes⟩ := (hneighbours [] _ _ _ rfl).1 (hword "else" (by decide))
    (hword "$f" (by decide))
  refine ⟨htight, htext, fun h => ?_⟩
  exact (hgap.1 (htakes.1 h)).2 rfl

end Node

namespace Spacing

/-- Joining adds single spaces between pieces and nothing else, so that without them the pieces one
behind the other are left. If no piece is blank, the pieces may be joined in groups first; for
pieces at large, blanks between two words are all that makes groups matter. A phrase whose leaves
may be grouped has the text of its leaves joined, however it nests. -/
theorem joinPieces_grouping (pieces : List Text) :
    joinPieces pieces = (List.zipWith (· ++ ·) (gaps [] pieces) pieces).flatten ∧
      (∀ g ∈ gaps [] pieces, g = [] ∨ g = " ") ∧
      (∀ g ∈ (gaps [] pieces).head?, g = []) ∧
      List.zipWith (fun _ piece => piece) (gaps [] pieces) pieces = pieces ∧
      ((∀ piece ∈ pieces, IsSolid piece) → Groupable pieces) ∧
      (Groupable pieces ↔ ¬ BlankBetweenWords pieces) ∧
      (Groupable pieces → ∀ node : Node, node.placedLeaves.map Leaf.spaced = pieces →
        node.text = trimSpaces (joinPieces pieces)) := by
  refine ⟨foldl_glue_eq pieces rfl, eq_or_of_mem_gaps, ?_, ?_, fun h => ?_, groupable_iff pieces,
    ?_⟩
  · cases pieces <;> simp [gaps, gap, needsSpace]
  · have hlength := length_gaps [] pieces
    rw [← List.map_uncurry_zip_eq_zipWith]
    exact List.map_snd_zip hlength.ge
  · exact (groupable_iff pieces).2
      (not_blankBetweenWords fun piece hmem => h piece (List.mem_of_mem_tail hmem))
  · rintro h node rfl
    exact Node.text_eq_joinPieces ((groupable_iff _).1 h)

/-- A conditional statement in groups, one of them empty and one with an empty piece. -/
def conditionGroups : List (List Text) :=
  [["if"], ["(", "a", "", " == ", "b", ")"], [], ["c", "else"], ["d"]]

theorem joinPieces_grouping_condition :
    (∀ piece ∈ conditionGroups.flatten, IsSolid piece) ∧
      joinPieces (conditionGroups.map joinPieces) = ("if(a == b)c else d" : Text) := by
  have hsolid : ∀ piece ∈ conditionGroups.flatten, IsSolid piece := by
    unfold IsSolid
    decide
  have hgroup : Groupable conditionGroups.flatten :=
    (joinPieces_grouping conditionGroups.flatten).2.2.2.2.1 hsolid
  exact ⟨hsolid, (hgroup conditionGroups rfl).trans (by decide +kernel)⟩

end Spacing
end VerilogLayout

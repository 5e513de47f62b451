import VerilogLayout.Proofs.Plain.Basic

/-!
# Ink

The ink of a text is what is left of it without blanks. Joining, indenting and stripping change no
ink, so a phrase has the ink of its leaves, `ink_text`, wherever its spaces go.
-/

namespace VerilogLayout

namespace Text

/-- The characters of a text that are no blanks. -/
def ink (text : Text) : Text :=
  text.filter fun c => !isBlank c

@[simp]
theorem ink_nil : ink [] = [] :=
  rfl

/-- An appended text adds its ink. -/
@[simp]
theorem ink_append (text other : Text) : ink (text ++ other) = ink text ++ ink other :=
  List.filter_append text other

/-- Blanks have no ink. -/
theorem ink_eq_nil {text : Text} (h : ∀ c ∈ text, isBlank c) : ink text = [] := by
  rw [ink, List.filter_eq_nil_iff]
  intro c hc
  simp [h c hc]

theorem ink_space : ink " " = [] :=
  rfl

/-- Spaces have no ink. -/
@[simp]
theorem ink_spaces (n : Nat) : ink (spaces n) = [] :=
  ink_eq_nil fun c hc => by rw [List.eq_of_mem_replicate hc]; rfl

/-- Dropping blanks at the end drops no ink. -/
theorem ink_dropRightWhile {p : CodePoint → Bool} (hp : ∀ c, p c → isBlank c) (text : Text) :
    ink (dropRightWhile p text) = ink text := by
  obtain ⟨tail, heq, htail⟩ := exists_dropRightWhile_append p text
  have hink := congrArg ink heq
  rwa [ink_append, ink_eq_nil fun c hc => hp c (htail c hc), List.append_nil] at hink

/-- Dropping blanks in front drops no ink. -/
theorem ink_dropWhile {p : CodePoint → Bool} (hp : ∀ c, p c → isBlank c) (text : Text) :
    ink (text.dropWhile p) = ink text := by
  have hink := congrArg ink (List.takeWhile_append_dropWhile (p := p) (l := text))
  rwa [ink_append, ink_eq_nil fun c hc => hp c (List.mem_takeWhile_imp hc), List.nil_append]
    at hink

/-- Trimming spaces loses no ink. -/
@[simp]
theorem ink_trimSpaces (text : Text) : ink (trimSpaces text) = ink text := by
  have hspace : ∀ c : CodePoint, (c == ' ') = true → isBlank c :=
    fun c => isBlank_of_beq_space
  exact (ink_dropRightWhile hspace _).trans (ink_dropWhile hspace _)

/-- A line feed at the end is no ink. -/
theorem ink_dropLast {text : Text} (h : text.getLast? = some (.char '\n')) :
    ink (dropLast text) = ink text := by
  obtain ⟨front, rfl⟩ := List.getLast?_eq_some_iff.1 h
  have hfeed : ink "\n" = [] := rfl
  rw [dropLast, List.dropLast_concat, ink_append]
  exact (List.append_nil _).symm.trans (congrArg _ hfeed.symm)

/-- Separators of blanks between texts are no ink. -/
theorem ink_intercalate {separator : Text} (texts : List Text) (h : ink separator = []) :
    ink (List.intercalate separator texts) = texts.flatMap ink := by
  induction texts with
  | nil => simp
  | cons text rest ih =>
      cases rest with
      | nil => simp
      | cons next rest => simp [h, ih]

end Text

open Text

/-- An indentation has no ink. -/
@[simp]
theorem ink_indentFor (level : Int) : ink (indentFor level) = [] :=
  ink_spaces _

/-- Taking an indentation away loses no ink. -/
@[simp]
theorem ink_stripIndent (text : Text) (level : Int) : ink (stripIndent text level) = ink text := by
  unfold stripIndent
  dsimp only
  split
  · next hstart =>
      obtain ⟨rest, rfl⟩ := List.isPrefixOf_iff_prefix.1 hstart
      rw [List.drop_left, ink_append, ink_indentFor, List.nil_append]
  · rfl

namespace Spacing

/-- Texts that are glued keep their ink. -/
theorem ink_glue (front piece : Text) : ink (glue front piece) = ink front ++ ink piece := by
  unfold glue
  split
  · rw [ink_append, ink_append, ink_space, List.append_nil]
  · exact ink_append _ _

/-- Pieces keep their ink when they are joined. -/
@[simp]
theorem ink_joinPieces (pieces : List Text) : ink (joinPieces pieces) = pieces.flatMap ink := by
  suffices h : ∀ front, ink (pieces.foldl glue front) = ink front ++ pieces.flatMap ink from h []
  induction pieces with
  | nil => simp
  | cons piece rest ih =>
      intro front
      rw [List.foldl_cons, ih, ink_glue, List.flatMap_cons, List.append_assoc]

end Spacing

namespace Lexeme

/-- Spaces around a lexeme add no ink. -/
@[simp]
theorem ink_surrounded (lexeme : Text) : ink (surrounded lexeme) = ink lexeme := by
  unfold surrounded
  rw [ink_append, ink_append, ink_space, List.nil_append,
    List.append_nil]

/-- An operator has the ink of its lexeme, wherever it stands. -/
theorem ink_spacedOperator (place : Place) (lexeme : Text) :
    ink (spacedOperator place lexeme) = ink lexeme := by
  unfold spacedOperator
  split_ifs
  · rfl
  · exact ink_surrounded _
  · rfl
  · exact ink_surrounded _

/-- A token that its name does not fix has the ink of its lexeme. -/
theorem ink_spaced_of_free (place : Place) {name : Text} {lexeme : Text}
    (hname : byName? name = none) (hlexeme : lexeme ≠ endOfFile) :
    ink (spaced place name lexeme) = ink lexeme := by
  unfold spaced
  rw [if_neg hlexeme, hname]
  dsimp only
  split_ifs
  all_goals first
    | rfl
    | exact ink_surrounded _
    | exact ink_spacedOperator _ _

/-- The place of a token has no influence on its ink. -/
theorem ink_spaced_place (place other : Place) (name : Text) (lexeme : Text) :
    ink (spaced place name lexeme) = ink (spaced other name lexeme) := by
  by_cases hlexeme : lexeme = endOfFile
  · unfold spaced
    rw [if_pos hlexeme, if_pos hlexeme]
  · cases hname : byName? name with
    | none => rw [ink_spaced_of_free place hname hlexeme, ink_spaced_of_free other hname hlexeme]
    | some text =>
        unfold spaced
        rw [if_neg hlexeme, if_neg hlexeme, hname]

end Lexeme

namespace Node

mutual
/-- The nodes without children, from left to right. -/
def leaves : Node → List Node
  | ⟨name, value, children, leading, trailing⟩ =>
      match children with
      | [] => [⟨name, value, [], leading, trailing⟩]
      | child :: children => leaves child ++ leavesAll children

/-- The nodes without children below nodes, from left to right. -/
def leavesAll : List Node → List Node
  | [] => []
  | node :: nodes => leaves node ++ leavesAll nodes
end

/-- The leaves of nodes in a row are those of both parts. -/
@[simp]
theorem leavesAll_append (nodes others : List Node) :
    leavesAll (nodes ++ others) = leavesAll nodes ++ leavesAll others := by
  induction nodes with
  | nil => rfl
  | cons node rest ih => simp [leavesAll, ih]

/-- A node without children is a leaf. -/
theorem leaves_of_children_eq_nil {node : Node} (h : node.children = []) :
    node.leaves = [node] := by
  obtain ⟨name, value, children, leading, trailing⟩ := node
  cases h
  simp [leaves]

/-- A phrase has the leaves of its children. -/
theorem leaves_of_children_ne_nil {node : Node} (h : node.children ≠ []) :
    node.leaves = leavesAll node.children := by
  obtain ⟨name, value, children, leading, trailing⟩ := node
  cases children with
  | nil => exact absurd rfl h
  | cons child rest => rw [leaves, leavesAll]

/-- An only child has all leaves of its node. -/
theorem leaves_of_single {node child : Node} (h : node.children = [child]) :
    node.leaves = child.leaves := by
  obtain ⟨name, value, children, leading, trailing⟩ := node
  cases h
  simp [leaves, leavesAll]

/-- A token is a leaf. -/
theorem leaves_of_isToken {node : Node} (h : node.isToken) : node.leaves = [node] := by
  refine leaves_of_children_eq_nil (List.isEmpty_iff.1 ?_)
  rw [isToken, Bool.and_eq_true] at h
  exact h.2

/-- The ink of leaves, one behind the other. -/
def inkOf (nodes : List Node) : Text :=
  nodes.flatMap fun leaf => ink leaf.text

@[simp]
theorem inkOf_nil : inkOf [] = [] :=
  rfl

/-- The ink of nodes in a row is that of both parts. -/
@[simp]
theorem inkOf_append (nodes others : List Node) :
    inkOf (nodes ++ others) = inkOf nodes ++ inkOf others :=
  List.flatMap_append

/-- The ink of nodes is that of the first one and then of the others. -/
@[simp]
theorem inkOf_cons (node : Node) (nodes : List Node) :
    inkOf (node :: nodes) = ink node.text ++ inkOf nodes :=
  List.flatMap_cons

mutual
/-- A node that is spelled has the ink of its leaves, wherever it stands. -/
theorem ink_spelledAt (place : Lexeme.Place) : (node : Node) →
    ink (Id.run (spelledAt (fun _ => pure []) place node)) = inkOf node.leaves
  | ⟨name, value, [], leading, trailing⟩ => by
      simp only [leaves, inkOf_cons, inkOf_nil, List.append_nil, text, spelled, spelledAt]
      simp [commentsInFront, commentsBehind]
      exact Lexeme.ink_spaced_place _ _ _ _
  | ⟨name, value, child :: children, leading, trailing⟩ => by
      have hpieces := ink_spelledAll name true place.inRange 0 (child :: children)
      simp only [leavesAll] at hpieces
      simp [leaves, spelledAt, commentsInFront, commentsBehind, ← hpieces]

/-- Nodes that are spelled in a row have the ink of their leaves. -/
theorem ink_spelledAll (parent : Text) (isFirst inRange : Bool) (depth : Int) :
    (nodes : List Node) →
    (Id.run (spelledAll (fun _ => pure []) parent isFirst inRange depth nodes)).flatMap ink =
      inkOf (leavesAll nodes)
  | [] => rfl
  | node :: rest => by
      simp [spelledAll, leavesAll, ink_spelledAt _ node,
        ink_spelledAll parent false inRange _ rest]
end

/-- A phrase has the ink of its leaves. -/
theorem ink_text (node : Node) : ink node.text = inkOf node.leaves := by
  simp [text, spelled, ink_spelledAt]

/-- Phrases side by side have the ink of their leaves. -/
theorem ink_joinedText (nodes : List Node) : ink (joinedText nodes) = inkOf (leavesAll nodes) := by
  rw [joinedText, Spacing.ink_joinPieces, List.flatMap_map]
  induction nodes with
  | nil => rfl
  | cons node rest ih => rw [List.flatMap_cons, ih, ink_text, leavesAll, inkOf_append]

end Node
end VerilogLayout

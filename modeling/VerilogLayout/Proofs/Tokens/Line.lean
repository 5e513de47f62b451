import VerilogLayout.Proofs.Source.Search
import VerilogLayout.Proofs.Spacing.Lexeme

/-!
# The lines of a text

A layout moves spaces and breaks lines and changes nothing else. `Prints text lines` says that a
text without its spaces is `lines`, each of which is given by its leaves. Two texts one behind the
other share a line, so their lines meet: read `Prints.append` first.
-/

namespace VerilogLayout

namespace Text

/-- The text without its spaces. -/
def unspaced (text : Text) : Text :=
  text.filter fun c => c ≠ ' '

@[simp]
theorem unspaced_nil : unspaced [] = [] :=
  rfl

@[simp]
theorem unspaced_append (text other : Text) :
    unspaced (text ++ other) = unspaced text ++ unspaced other :=
  List.filter_append text other

@[simp]
theorem unspaced_spaces (n : Nat) : unspaced (spaces n) = [] := by
  simp [unspaced, spaces]

@[simp]
theorem unspaced_indentFor (level : Int) : unspaced (indentFor level) = [] :=
  unspaced_spaces _

@[simp]
theorem unspaced_trimSpaces (text : Text) : unspaced (trimSpaces text) = unspaced text := by
  obtain ⟨tail, hback, htail⟩ := exists_dropRightWhile_append (· == .char ' ')
    (text.dropWhile (· == .char ' '))
  have hspaces : ∀ s : Text, (∀ c ∈ s, (c == ' ') = true) → unspaced s = [] := by
    intro s hs
    simpa [unspaced, List.filter_eq_nil_iff] using hs
  have hfront :=
    congrArg unspaced (List.takeWhile_append_dropWhile (p := (· == .char ' ')) (l := text))
  have hdropped : ∀ c ∈ text.takeWhile (· == .char ' '), (c == ' ') = true :=
    fun c hc => (List.mem_takeWhile_imp hc : _)
  rw [unspaced_append, hspaces _ hdropped, List.nil_append] at hfront
  have hend := congrArg unspaced hback
  rw [unspaced_append, hspaces tail htail, List.append_nil] at hend
  exact hend.trans hfront

/-- Leaving out spaces breaks no line. -/
theorem splitOn_unspaced (text : Text) :
    List.splitOn (.char '\n') (unspaced text) = (List.splitOn (.char '\n') text).map unspaced := by
  induction text with
  | nil => rfl
  | cons c rest ih =>
      obtain ⟨part, parts, hparts⟩ :=
        List.exists_cons_of_ne_nil (List.splitOn_ne_nil (.char '\n') rest)
      rw [hparts] at ih
      by_cases hspace : c = ' '
      · subst hspace
        have hdrop : unspaced (.char ' ' :: rest) = unspaced rest := rfl
        rw [hdrop, ih, List.splitOn_cons_eq_if_modifyHead, if_neg (by decide), hparts]
        rfl
      · have hkeep : ∀ s, unspaced (c :: s) = c :: unspaced s := fun s => by
          simp [unspaced, hspace]
        by_cases hfeed : c = '\n'
        · rw [hkeep, List.splitOn_cons_eq_if_modifyHead, List.splitOn_cons_eq_if_modifyHead,
            if_pos (beq_iff_eq.2 hfeed), if_pos (beq_iff_eq.2 hfeed), ih, hparts]
          rfl
        · have hfeed' : ¬ (c == .char '\n') = true := by simpa using hfeed
          rw [hkeep, List.splitOn_cons_eq_if_modifyHead, List.splitOn_cons_eq_if_modifyHead,
            if_neg hfeed', if_neg hfeed', ih, hparts]
          simp [hkeep]

/-- Spaces are blanks, so they are no ink. -/
theorem ink_unspaced (text : Text) : ink (unspaced text) = ink text := by
  rw [ink, unspaced, List.filter_filter]
  refine List.filter_congr fun c _ => ?_
  by_cases hspace : c = ' '
  · subst hspace
    rfl
  · simp [hspace]

end Text

open Text

theorem Lexeme.unspaced_spaced (place other : Place) (name : Text) (lexeme : Text) :
    unspaced (spaced place name lexeme) = unspaced (spaced other name lexeme) := by
  rw [spaced_eq place, spaced_eq other]
  simp

namespace Spacing

theorem unspaced_joinPieces (pieces : List Text) :
    unspaced (joinPieces pieces) = pieces.flatMap unspaced := by
  suffices h : ∀ front, unspaced (pieces.foldl glue front) =
      unspaced front ++ pieces.flatMap unspaced from h []
  induction pieces with
  | nil => simp
  | cons piece rest ih =>
      intro front
      have hglue : unspaced (glue front piece) = unspaced front ++ unspaced piece := by
        have hspace : unspaced " " = [] := rfl
        unfold glue
        split <;> simp [hspace, -String.reduceToList]
      rw [List.foldl_cons, ih, hglue, List.flatMap_cons, List.append_assoc]

end Spacing

namespace Node

/-- Leaves one behind the other without any space. -/
def solidOf (nodes : List Node) : Text :=
  nodes.flatMap fun leaf => unspaced leaf.text

@[simp]
theorem solidOf_nil : solidOf [] = [] :=
  rfl

/-- The solid text of nodes in a row is that of both parts. -/
@[simp]
theorem solidOf_append (nodes others : List Node) :
    solidOf (nodes ++ others) = solidOf nodes ++ solidOf others :=
  List.flatMap_append

/-- The solid text of nodes is that of the first one and then of the others. -/
@[simp]
theorem solidOf_cons (node : Node) (nodes : List Node) :
    solidOf (node :: nodes) = unspaced node.text ++ solidOf nodes :=
  List.flatMap_cons

/-- The solid text of nodes has their ink. -/
theorem ink_solidOf (nodes : List Node) : ink (solidOf nodes) = inkOf nodes := by
  induction nodes with
  | nil => rfl
  | cons node rest ih => rw [solidOf_cons, inkOf_cons, ink_append, ink_unspaced, ih]

mutual
/-- A node that is spelled differs from its leaves in spaces only, wherever it stands. -/
theorem unspaced_spelledAt (place : Lexeme.Place) : (node : Node) →
    unspaced (Id.run (spelledAt (fun _ => pure []) place node)) = solidOf node.leaves
  | ⟨name, value, [], leading, trailing⟩ => by
      simp only [leaves, solidOf_cons, solidOf_nil, List.append_nil, text, spelled, spelledAt]
      simp [commentsInFront, commentsBehind]
      exact Lexeme.unspaced_spaced _ _ _ _
  | ⟨name, value, child :: children, leading, trailing⟩ => by
      have hpieces := unspaced_spelledAll name true place.inRange 0 (child :: children)
      simp only [leavesAll] at hpieces
      simp [leaves, spelledAt, commentsInFront, commentsBehind, Spacing.unspaced_joinPieces,
        ← hpieces]

theorem unspaced_spelledAll (parent : Text) (isFirst inRange : Bool) (depth : Int) :
    (nodes : List Node) →
    (Id.run (spelledAll (fun _ => pure []) parent isFirst inRange depth nodes)).flatMap unspaced =
      solidOf (leavesAll nodes)
  | [] => rfl
  | node :: rest => by
      simp [spelledAll, leavesAll, unspaced_spelledAt _ node,
        unspaced_spelledAll parent false inRange _ rest]
end

/-- A phrase without its spaces is its leaves without theirs. -/
theorem unspaced_text (node : Node) : unspaced node.text = solidOf node.leaves := by
  simp [text, spelled, unspaced_spelledAt]

/-- A leaf without its spaces is the lexeme that it stands for. -/
theorem unspaced_text_of_leaf {node : Node} (h : node.children = []) :
    unspaced node.text = unspaced (Lexeme.plain node.name node.lexeme) := by
  obtain ⟨name, value, children, leading, trailing⟩ := node
  obtain rfl : children = [] := h
  simp only [text, spelled, spelledAt, commentsInFront, commentsBehind, lexeme]
  simp [Lexeme.spaced_eq]

theorem unspaced_joinedText (nodes : List Node) :
    unspaced (joinedText nodes) = solidOf (leavesAll nodes) := by
  rw [joinedText, Spacing.unspaced_joinPieces, List.flatMap_map]
  induction nodes with
  | nil => rfl
  | cons node rest ih => rw [List.flatMap_cons, ih, unspaced_text, leavesAll, solidOf_append]

/-! ## Lines -/

/-- The lines of two texts one behind the other, the last of the first with the first of the
second. -/
def meet : List (List Node) → List (List Node) → List (List Node)
  | [], others => others
  | [line], [] => [line]
  | [line], other :: others => (line ++ other) :: others
  | line :: next :: lines, others => line :: meet (next :: lines) others

/-- The text without its spaces is these lines. -/
def Prints (text : Text) (lines : List (List Node)) : Prop :=
  unspaced text = List.intercalate "\n" (lines.map solidOf)

theorem prints_singleton {text : Text} {line : List Node} :
    Prints text [line] ↔ unspaced text = solidOf line := by
  rw [Prints, List.map_singleton, List.intercalate_singleton]

/-- Lines that meet have the nodes of both parts. -/
theorem meet_flatten (lines others : List (List Node)) :
    (meet lines others).flatten = lines.flatten ++ others.flatten := by
  fun_induction meet lines others with
  | case1 => rfl
  | case2 => simp
  | case3 => simp
  | case4 line next lines others ih => simp [ih]

/-- The last line of the front meets the first line behind. -/
theorem meet_concat (lines : List (List Node)) (line other : List Node)
    (others : List (List Node)) :
    meet (lines ++ [line]) (other :: others) = lines ++ (line ++ other) :: others := by
  induction lines with
  | nil => rfl
  | cons first rest ih =>
      obtain ⟨next, tail, hnext⟩ := List.exists_cons_of_ne_nil (l := rest ++ [line]) (by simp)
      rw [List.cons_append, hnext, meet, ← hnext, ih, List.cons_append]

namespace Prints

/-- Texts one behind the other have the lines of both. -/
theorem append {text other : Text} {lines others : List (List Node)} (h : Prints text lines)
    (hother : Prints other others) : Prints (text ++ other) (meet lines others) := by
  rw [Prints, unspaced_append, h, hother]
  clear h hother
  fun_induction meet lines others with
  | case1 => rfl
  | case2 line => simp
  | case3 line other others => cases others <;> simp
  | case4 line next lines others ih =>
      have hne : meet (next :: lines) others ≠ [] := by
        cases lines <;> cases others <;> simp [meet]
      obtain ⟨first, rest, hmeet⟩ := List.exists_cons_of_ne_nil hne
      rw [hmeet] at ih ⊢
      simp only [List.map_cons, List.intercalate_cons_cons, List.append_assoc] at ih ⊢
      rw [ih]

/-- Spaces in front change no line. -/
theorem after {gap text : Text} {lines : List (List Node)} (hgap : unspaced gap = [])
    (h : Prints text lines) : Prints (gap ++ text) lines := by
  rw [Prints, unspaced_append, hgap, List.nil_append, h]

/-- A line and, below it, other lines. -/
theorem line {text other : Text} {nodes : List Node} {lines : List (List Node)}
    (h : unspaced text = solidOf nodes) (hother : Prints other lines) (hne : lines ≠ []) :
    Prints (text ++ "\n" ++ other) (nodes :: lines) := by
  have hfeed : unspaced "\n" = "\n" := rfl
  obtain ⟨next, rest, rfl⟩ := List.exists_cons_of_ne_nil hne
  rw [Prints, unspaced_append, unspaced_append, h, hfeed, hother]
  simp

/-- A line feed ends the last line. -/
theorem feed {text : Text} {lines : List (List Node)} (h : Prints text lines) (hne : lines ≠ []) :
    Prints (text ++ "\n") (lines ++ [[]]) := by
  have hfeed : Prints "\n" [[], []] := rfl
  have hmeet := h.append hfeed
  rw [← List.dropLast_concat_getLast hne] at hmeet ⊢
  rw [meet_concat, List.append_nil] at hmeet
  rwa [List.append_assoc]

/-- What stands behind an empty line begins it. -/
theorem behind {text other : Text} {lines : List (List Node)} {nodes : List Node}
    (h : Prints text (lines ++ [[]])) (hother : unspaced other = solidOf nodes) :
    Prints (text ++ other) (lines ++ [nodes]) := by
  have hline : Prints other [nodes] := prints_singleton.2 hother
  have hmeet := h.append hline
  rwa [meet_concat, List.nil_append] at hmeet

/-- A text that prints lines has their ink. -/
theorem ink {text : Text} {lines : List (List Node)} (h : Prints text lines) :
    ink text = inkOf lines.flatten := by
  rw [← ink_unspaced, h, ink_intercalate _ rfl, List.flatMap_map]
  clear h
  induction lines with
  | nil => rfl
  | cons line rest ih => rw [List.flatMap_cons, List.flatten_cons, inkOf_append, ih, ink_solidOf]

/-- The lines of a text, if no leaf breaks a line. -/
theorem lines {text : Text} {lines : List (List Node)} (h : Prints text lines) (hne : lines ≠ [])
    (hfeed : ∀ line ∈ lines, ∀ leaf ∈ line, .char '\n' ∉ leaf.text) :
    (List.splitOn (.char '\n') text).map Text.ink = lines.map inkOf := by
  have hsolid : ∀ part ∈ lines.map solidOf, .char '\n' ∉ part := by
    intro part hpart hmem
    obtain ⟨line, hline, rfl⟩ := List.mem_map.1 hpart
    obtain ⟨leaf, hleaf, hmem⟩ := List.mem_flatMap.1 hmem
    exact hfeed line hline leaf hleaf (List.mem_filter.1 hmem).1
  have hsplit : (List.splitOn (.char '\n') text).map unspaced = lines.map solidOf := by
    rw [← splitOn_unspaced, h]
    exact List.splitOn_intercalate _ hsolid (by simpa using hne)
  calc (List.splitOn (.char '\n') text).map Text.ink
      = ((List.splitOn (.char '\n') text).map unspaced).map Text.ink := by simp [ink_unspaced]
    _ = (lines.map solidOf).map Text.ink := by rw [hsplit]
    _ = lines.map inkOf := by simp [ink_solidOf]

end Prints

end Node
end VerilogLayout

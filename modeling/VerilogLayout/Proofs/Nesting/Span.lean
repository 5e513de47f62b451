import VerilogLayout.Proofs.Collapse.Tree
import VerilogLayout.Proofs.Nesting.Line

/-!
# Texts that nest

A text that is written at a level consists of code, which is the same at every level, and of line
feeds, each with the indentation of a level behind it: `Nests`. Such texts can be put together, and
one level deeper every line of them moves by one indentation and nothing else changes,
`Nests.placed`.
-/

namespace VerilogLayout

open Text Node Render

/-- The text with four more spaces in front of every line that is not empty. -/
def deepened (text : Text) : Text :=
  List.intercalate "\n" ((List.splitOn (.char '\n') text).map fun line =>
    if line.isEmpty then line else spaces 4 ++ line)

/-- A part of a text that is written at a level: code on one line, or a line feed with the
indentation of a level that is `depth` deeper. -/
inductive Span where
  | code (text : Text) (line : OneLine text)
  | feed (depth : Nat)

namespace Span

/-- A part as it is written at a level. -/
def text (level : Int) : Span → Text
  | code text _ => text
  | feed depth => "\n" ++ indentFor (level + depth)

/-- Parts one behind the other as they are written at a level. -/
def texts (level : Int) (spans : List Span) : Text :=
  spans.flatMap (text level)

end Span

/-- From the first level on the lines of a text follow the level at which it is written. -/
def Nests (t : Int → Text) : Prop :=
  ∃ spans : List Span, ∀ level, 1 ≤ level → t level = Span.texts level spans

/-! ## Deeper lines -/

/-- One more level is one more indentation in front. -/
theorem indentFor_succ {level : Int} (h : 0 ≤ level) :
    indentFor (level + 1) = indentFor 1 ++ indentFor level := by
  have hwidth : indentWidth * (level + 1).toNat = indentWidth * (1 : Int).toNat +
      indentWidth * level.toNat := by
    unfold indentWidth
    omega
  rw [indentFor, hwidth, indentFor, indentFor, spaces, spaces, spaces,
    List.replicate_append_replicate]

/-- A line deeper in a text moves with the level of the text. -/
theorem indentFor_deeper {level : Int} (h : 1 ≤ level) (depth : Nat) :
    indentFor (level + 1 + depth) = indentFor 1 ++ indentFor (level + depth) := by
  rw [Int.add_right_comm, indentFor_succ (by omega)]

/-- From the first level on lines are indented. -/
theorem indentFor_ne_nil {level : Int} (h : 1 ≤ level) : indentFor level ≠ [] := by
  rw [indentFor, spaces, Ne, List.replicate_eq_nil_iff]
  unfold indentWidth
  omega

theorem deepened_nil : deepened [] = [] :=
  rfl

/-- A line is indented. -/
theorem deepened_line {line : Text} (h : OneLine line) (hne : line ≠ []) :
    deepened line = indentFor 1 ++ line := by
  rw [deepened, List.splitOn_eq_singleton h, List.map_singleton, List.intercalate_singleton,
    if_neg fun hempty => hne (List.isEmpty_iff.1 hempty)]
  rfl

/-- Lines are indented one by one. -/
theorem deepened_feed {line : Text} (h : OneLine line) (rest : Text) :
    deepened (line ++ .char '\n' :: rest) = deepened line ++ .char '\n' :: deepened rest := by
  obtain ⟨next, others, hrest⟩ := List.exists_cons_of_ne_nil (List.splitOn_ne_nil (.char '\n') rest)
  rw [deepened, deepened, deepened, List.splitOn_append_cons_self_of_not_mem h,
    List.splitOn_eq_singleton h, hrest]
  rw [List.map_cons, List.map_cons, List.intercalate_cons_cons, List.map_singleton,
    List.intercalate_singleton, List.append_assoc]
  rfl

/-- Every line of parts behind a line is indented, whether a line feed ends the last one or not. -/
theorem deepened_texts {front back : Text} (hback : back = [] ∨ back = "\n") {level : Int}
    (hlevel : 1 ≤ level) (spans : List Span) (hfront : OneLine front) (hne : front ≠ []) :
    deepened (front ++ Span.texts level spans ++ back) =
      indentFor 1 ++ front ++ Span.texts (level + 1) spans ++ back := by
  induction spans generalizing front with
  | nil =>
      rw [Span.texts, Span.texts, List.flatMap_nil, List.flatMap_nil, List.append_nil,
        List.append_nil]
      rcases hback with rfl | rfl
      · rw [List.append_nil, List.append_nil, deepened_line hfront hne]
      · exact (deepened_feed hfront []).trans (by rw [deepened_line hfront hne]; rfl)
  | cons span rest ih =>
      cases span with
      | code text line =>
          have hall := ih (oneLine_append.2 ⟨hfront, line⟩)
            (List.append_ne_nil_of_left_ne_nil hne text)
          simpa only [Span.texts, List.flatMap_cons, Span.text, List.append_assoc] using hall
      | feed depth =>
          have htexts : ∀ (front : Text) (level : Int),
              front ++ Span.texts level (.feed depth :: rest) ++ back =
                front ++ .char '\n' ::
                  (indentFor (level + depth) ++ Span.texts level rest ++ back) := by
            intro front level
            have htexts : Span.texts level (.feed depth :: rest) =
                .char '\n' :: (indentFor (level + depth) ++ Span.texts level rest) := rfl
            rw [htexts, List.append_assoc, List.cons_append]
          have hnext := ih (oneLine_indentFor (level + depth)) (indentFor_ne_nil (by omega))
          rw [htexts, htexts, deepened_feed hfront, hnext, deepened_line hfront hne,
            indentFor_deeper hlevel]

namespace Nests

variable {t u : Int → Text}

theorem congr (h : Nests t) (heq : ∀ level, 1 ≤ level → u level = t level) : Nests u := by
  obtain ⟨spans, hspans⟩ := h
  exact ⟨spans, fun level hlevel => (heq level hlevel).trans (hspans level hlevel)⟩

theorem const {text : Text} (h : OneLine text) : Nests fun _ => text :=
  ⟨[.code text h], fun _ _ => (List.append_nil text).symm⟩

/-- The start of a new line nests. -/
theorem feed (depth : Nat) : Nests fun level => "\n" ++ indentFor (level + depth) :=
  ⟨[.feed depth], fun _ _ => (List.append_nil _).symm⟩

theorem append (ht : Nests t) (hu : Nests u) : Nests fun level => t level ++ u level := by
  obtain ⟨spans, hspans⟩ := ht
  obtain ⟨others, hothers⟩ := hu
  refine ⟨spans ++ others, fun level hlevel => ?_⟩
  dsimp only
  rw [hspans level hlevel, hothers level hlevel, Span.texts, Span.texts, Span.texts,
    List.flatMap_append]

theorem flatMap {α : Type} {items : List α} {f : α → Int → Text}
    (h : ∀ item ∈ items, Nests (f item)) : Nests fun level => items.flatMap (f · level) := by
  induction items with
  | nil => exact const oneLine_nil
  | cons item rest ih =>
      obtain ⟨hitem, hrest⟩ := List.forall_mem_cons.1 h
      exact hitem.append (ih hrest)

/-! ## Phrases in their place -/

/-- A text that nests begins at every level as it does at one of them. -/
theorem begins (spans : List Span) :
    (∀ level, Span.texts level spans = []) ∨
      (∃ (depth : Nat) (others : List Span), ∀ level,
        Span.texts level spans = .char '\n' ::
          (indentFor (level + depth) ++ Span.texts level others)) ∨
      ∀ level, ∃ (c : CodePoint) (rest : Text), c ≠ '\n' ∧ Span.texts level spans = c :: rest := by
  induction spans with
  | nil => exact .inl fun _ => rfl
  | cons span rest ih =>
      cases span with
      | feed depth => exact .inr (.inl ⟨depth, rest, fun _ => rfl⟩)
      | code text line =>
          cases text with
          | nil => exact ih
          | cons c text =>
              exact .inr (.inr fun level =>
                ⟨c, text ++ Span.texts level rest, fun heq => line (heq ▸ List.mem_cons_self), rfl⟩)

/-- No line feed stands at the end of a text that nests. -/
theorem endsLine_texts {front : Text} (hfront : OneLine front) {level : Int} (hlevel : 1 ≤ level)
    (spans : List Span) : endsLine (front ++ Span.texts level spans) = false := by
  rw [Bool.eq_false_iff, Ne, endsLine_iff]
  have hlast : front.getLast? ≠ some (.char '\n') :=
    fun hlast => hfront (List.mem_of_getLast? hlast)
  clear hfront
  induction spans generalizing front with
  | nil => simpa [Span.texts] using hlast
  | cons span rest ih =>
      have hnext : (front ++ span.text level).getLast? ≠ some (.char '\n') := by
        cases span with
        | code text line =>
            rw [Span.text, List.getLast?_append]
            cases htext : text.getLast? with
            | none => exact hlast
            | some c => exact fun heq => line (List.mem_of_getLast? (htext.trans heq))
        | feed depth =>
            obtain ⟨c, hc⟩ : ∃ c, (indentFor (level + depth)).getLast? = some c :=
              ⟨_, List.getLast?_eq_some_getLast (indentFor_ne_nil (by omega))⟩
            rw [Span.text, ← List.append_assoc, Render.getLast?_append_eq hc]
            intro heq
            obtain rfl := Option.some.inj heq
            exact oneLine_indentFor _ (List.mem_of_getLast? hc)
      rw [Span.texts, List.flatMap_cons, ← List.append_assoc]
      exact ih hnext

/-- A line that is not ended yet is ended in one way. -/
theorem exists_lineEnd (ends : Bool) : ∃ back : Text, (back = [] ∨ back = "\n") ∧
    ∀ text, text ≠ [] → endsLine text = false → lineEnded ends text = text ++ back := by
  cases ends with
  | false => exact ⟨[], .inl rfl, fun text _ _ => (List.append_nil text).symm⟩
  | true =>
      refine ⟨"\n", .inr rfl, fun text hne hopen => ?_⟩
      rw [lineEnded, hopen, List.isEmpty_eq_false_iff.2 hne]
      rfl

/-- One level deeper a phrase is the same phrase with every line indented. -/
theorem placed (h : Nests t) {node : Node}
    (hinner : node.unwrap.inner.is Kind.indentsItself = false) {level : Int} (hlevel : 1 ≤ level) :
    placed false node (level + 1) (t (level + 1)) =
      deepened (placed false node level (t level)) := by
  obtain ⟨spans, hspans⟩ := h
  rw [hspans level hlevel, hspans (level + 1) (by omega), placed_eq, placed_eq, hinner]
  generalize (false || (node.unwrap.wrappers ++ [node.unwrap.inner]).any (·.is Kind.isMajor)) = ends
  obtain ⟨back, hback, hended⟩ := exists_lineEnd ends
  rcases begins spans with hnone | ⟨depth, others, hfeed⟩ | hcode
  · rw [hnone, hnone]
    unfold lineEnded
    simp [indented, deepened_nil]
  -- The first line is empty and stays so.
  · have hflush : ∀ level, 1 ≤ level → lineEnded ends (indented (false || false) level
        (Span.texts level spans)) =
          [] ++ .char '\n' :: (indentFor (level + depth) ++ Span.texts level others ++ back) := by
      intro level hlevel
      have hopen : endsLine (Span.texts level spans) = false :=
        endsLine_texts oneLine_nil hlevel spans
      have hindented : indented (false || false) level (Span.texts level spans) =
          Span.texts level spans := by
        rw [hfeed level]
        rfl
      rw [hindented, hended _ (by rw [hfeed level]; exact List.cons_ne_nil _ _) hopen, hfeed level]
      rfl
    rw [hflush level hlevel, hflush (level + 1) (by omega), deepened_feed oneLine_nil,
      deepened_texts hback hlevel others (oneLine_indentFor _) (indentFor_ne_nil (by omega)),
      ← indentFor_deeper hlevel, deepened_nil]
  · have hplaced : ∀ level, 1 ≤ level → lineEnded ends (indented (false || false) level
        (Span.texts level spans)) = indentFor level ++ Span.texts level spans ++ back := by
      intro level hlevel
      obtain ⟨c, rest, hc, htext⟩ := hcode level
      have hopen := endsLine_texts (oneLine_indentFor level) hlevel spans
      have hindented : indented (false || false) level (Span.texts level spans) =
          indentFor level ++ Span.texts level spans := by
        rw [htext]
        unfold indented
        rw [if_neg]
        simp [Text.startsWith, hc.symm]
      rw [hindented, hended _ (List.append_ne_nil_of_left_ne_nil (indentFor_ne_nil hlevel) _) hopen]
    rw [hplaced level hlevel, hplaced (level + 1) (by omega),
      deepened_texts hback hlevel spans (oneLine_indentFor _) (indentFor_ne_nil hlevel),
      indentFor_succ (by omega)]

end Nests
end VerilogLayout

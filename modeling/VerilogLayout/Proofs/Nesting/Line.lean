import VerilogLayout.Proofs.Source.Level
import VerilogLayout.Proofs.Tokens.Assignment
import VerilogLayout.Proofs.Tokens.Instance

/-!
# Lines that are moved

A line that starts further right has the same text if all its columns are moved as far: `Line.move`
passes through every step of a layout. At a level from the natural one on the start of a line and
its columns move together, so a layout writes the same text at every such level, and it is a single
line if its fields are.
-/

namespace VerilogLayout

namespace Text

/-- A text without a line feed. -/
def OneLine (text : Text) : Prop :=
  .char '\n' ∉ text

instance (text : Text) : Decidable (OneLine text) :=
  inferInstanceAs (Decidable (.char '\n' ∉ text))

@[simp]
theorem oneLine_nil : OneLine [] :=
  List.not_mem_nil

@[simp]
theorem oneLine_append {text other : Text} :
    OneLine (text ++ other) ↔ OneLine text ∧ OneLine other := by
  simp [OneLine, not_or]

@[simp]
theorem oneLine_spaces (n : Nat) : OneLine (spaces n) := by
  simp [OneLine, spaces]

@[simp]
theorem oneLine_indentFor (level : Int) : OneLine (indentFor level) :=
  oneLine_spaces _

theorem oneLine_space : OneLine " " := by
  decide

theorem oneLine_comma : OneLine "," := by
  decide

/-- A line feed is no space. -/
theorem oneLine_unspaced {text : Text} : OneLine (unspaced text) ↔ OneLine text := by
  simp [OneLine, unspaced]

theorem oneLine_flatMap {α : Type} {items : List α} {f : α → Text}
    (h : ∀ item ∈ items, OneLine (f item)) : OneLine (items.flatMap f) := by
  intro hmem
  obtain ⟨item, hitem, hfeed⟩ := List.mem_flatMap.1 hmem
  exact h item hitem hfeed

theorem oneLine_intercalate {separator : Text} (hseparator : OneLine separator) {texts : List Text}
    (h : ∀ text ∈ texts, OneLine text) : OneLine (List.intercalate separator texts) := by
  cases texts with
  | nil => exact oneLine_nil
  | cons text rest =>
      obtain ⟨htext, hrest⟩ := List.forall_mem_cons.1 h
      rw [intercalate_cons]
      exact oneLine_append.2 ⟨htext,
        oneLine_flatMap fun other hmem => oneLine_append.2 ⟨hseparator, hrest other hmem⟩⟩

/-- A text on one line stays on one line when it is trimmed. -/
theorem OneLine.trim {text : Text} (h : OneLine text) : OneLine (trim text) := by
  obtain ⟨front, back, htext, -⟩ := exists_trim text
  rw [htext] at h
  exact (oneLine_append.1 (oneLine_append.1 h).1).2

end Text

open Text

namespace Range

/-- The bounds of a range are parts of it. -/
theorem oneLine_split? {text upper lower : Text} (h : OneLine text)
    (hsplit : split? text = some (upper, lower)) : OneLine upper ∧ OneLine lower := by
  rw [split?, Option.bind_eq_bind, Option.bind_eq_some_iff] at hsplit
  obtain ⟨body, hbody, hparts⟩ := hsplit
  have htrim := h.trim
  rw [inside?_eq_some hbody] at htrim
  have hline : OneLine body := fun hmem =>
    htrim (List.mem_cons_of_mem _ (List.mem_append_left _ hmem))
  split at hparts
  · next first second hpair =>
      obtain ⟨rfl, -⟩ := Bracket.topLevelParts_eq_pair.1 hpair
      have hfirst : OneLine first := (oneLine_append.1 hline).1
      have hsecond : OneLine second := fun hmem =>
        (oneLine_append.1 hline).2 (List.mem_cons_of_mem _ hmem)
      dsimp only at hparts
      split at hparts
      · cases hparts
      · obtain ⟨rfl, rfl⟩ := Prod.mk.inj (Option.some.inj hparts)
        exact ⟨hfirst.trim, hsecond.trim⟩
  · cases hparts

/-- A range stays on its line when it is normalised. -/
theorem oneLine_normalise (columns : Columns) {text : Text} (h : OneLine text) :
    OneLine (Range.normalise columns text) := by
  have hopening : OneLine "[" := by decide
  have hcolon : OneLine ":" := by decide
  have hclosing : OneLine "]" := by decide
  unfold normalise
  cases hsplit : split? text with
  | none => exact h.trim
  | some bounds =>
      obtain ⟨hupper, hlower⟩ := oneLine_split? h hsplit
      simp only [format, padLeft, padRight, oneLine_append, oneLine_spaces, hupper.trim,
        hlower.trim, hopening, hcolon, hclosing, and_self]

end Range

namespace Line

/-- The line, further right by `k` columns. -/
def move (line : Line) (k : Int) : Line :=
  { line with start := line.start + k }

variable (line : Line) (k : Int)

/-- Moving a line leaves its text as it is. -/
@[simp]
theorem text_move : (line.move k).text = line.text :=
  rfl

theorem append_move (text : Text) : (line.move k).append text = (line.append text).move k :=
  rfl

/-- Only the distance to the target decides about the spaces. -/
theorem pad_add (current target k : Int) : pad (current + k) (target + k) = pad current target := by
  unfold pad
  omega

/-- A field moves with its line and its column. -/
theorem place_move (field : Text) (target gap : Int) :
    (line.move k).place field (target + k) gap = (line.place field target gap).move k := by
  have hcolumn : (line.move k).column = line.column + k := by
    unfold column move
    dsimp only
    omega
  unfold place
  split
  · rfl
  · rw [hcolumn, pad_add]
    rfl

/-- A word is appended to a line that is moved as to the line. -/
theorem appendWord_move (word : Text) :
    Layout.appendWord (line.move k) word = (Layout.appendWord line word).move k := by
  unfold Layout.appendWord
  split <;> rfl

/-- A terminator is placed in a line that is moved with its column. -/
theorem placeTerminator_move (terminator : Text) (column : Int) :
    Layout.placeTerminator (line.move k) terminator (column + k) =
      (Layout.placeTerminator line terminator column).move k := by
  unfold Layout.placeTerminator
  split
  · exact place_move line k terminator column 0
  · rfl

theorem oneLine_append {line : Line} {text : Text} :
    OneLine (line.append text).text ↔ OneLine line.text ∧ OneLine text :=
  Text.oneLine_append

theorem oneLine_place {line : Line} {field : Text} {target gap : Int} :
    OneLine (line.place field target gap).text ↔ OneLine line.text ∧ OneLine field := by
  rw [← oneLine_unspaced, Layout.unspaced_place, Text.oneLine_append, oneLine_unspaced,
    oneLine_unspaced]

theorem oneLine_appendWord {line : Line} {word : Text} :
    OneLine (Layout.appendWord line word).text ↔ OneLine line.text ∧ OneLine word := by
  unfold Layout.appendWord
  split
  · next hempty => simp [List.isEmpty_iff.1 hempty]
  · rw [oneLine_append, Text.oneLine_append, and_iff_right oneLine_space]

theorem oneLine_placeTerminator {line : Line} {terminator : Text} {column : Int} :
    OneLine (Layout.placeTerminator line terminator column).text ↔
      OneLine line.text ∧ OneLine terminator := by
  unfold Layout.placeTerminator
  split
  · exact oneLine_place
  · exact oneLine_append

end Line

/-- The fields of a declaration on one line. -/
structure Declaration.OneLine (fields : Declaration) : Prop where
  keyword : Text.OneLine fields.keyword
  modifiers : Text.OneLine fields.modifiers
  signing : Text.OneLine fields.signing
  range : Text.OneLine fields.range
  names : Text.OneLine fields.names
  dimensions : Text.OneLine fields.dimensions
  terminator : Text.OneLine fields.terminator

namespace Layout

open Line Node

variable (columns : Columns)

/-! ## Moved layouts -/

/-- A port that is moved with its columns has the same text. -/
theorem port_move (fields : Declaration) (start shift k : Int) :
    port columns fields (start + k) (shift + k) = port columns fields start shift := by
  have hstart : ({ start := start + k } : Line) = Line.move { start } k := rfl
  simp only [port, ← Int.add_assoc, hstart, place_move, appendWord_move, placeTerminator_move,
    text_move]

/-- A signal that is moved with its columns has the same text. -/
theorem signal_move (fields : Declaration) (start shift k : Int) :
    signal columns fields (start + k) (shift + k) = signal columns fields start shift := by
  have hstart : ({ start := start + k } : Line) = Line.move { start } k := rfl
  simp only [signal, scalar, array, ← Int.add_assoc, hstart, place_move, appendWord_move,
    placeTerminator_move, text_move]

/-- A parameter that is moved with its columns has the same text. -/
theorem parameter_move (fields : Parameter) (start shift k : Int) :
    parameter columns fields (start + k) (shift + k) = parameter columns fields start shift := by
  have hstart : ({ start := start + k } : Line) = Line.move { start } k := rfl
  simp only [parameter, ← Int.add_assoc, hstart, place_move, appendWord_move]
  split
  · rw [placeTerminator_move, text_move]
  · rw [append_move, placeTerminator_move, text_move]

/-- A connection that is moved with its column has the same text. -/
theorem connection_move (name value : Text) (column : Int) (terminator : Text) (start k : Int) :
    connection name value (column + k) terminator (start + k) =
      connection name value column terminator start := by
  have hstart : ({ start := start + k } : Line) = Line.move { start } k := rfl
  simp only [connection, hstart, append_move, place_move, text_move]

/-- An equals sign that has no column follows its target with a single space. -/
theorem place_equalsColumn_move {line : Line} (h : 0 ≤ line.start) {k : Int} (hk : 0 ≤ k)
    (shift : Int) (field : Text) :
    (line.move k).place field (equalsColumn columns (shift + k)) =
      (line.place field (equalsColumn columns shift)).move k := by
  unfold equalsColumn
  split
  · unfold Line.place
    have hpad : ∀ line : Line, 0 ≤ line.start → pad line.column 0 = 0 := by
      intro line hstart
      unfold pad column
      omega
    rw [hpad line h, hpad (line.move k) (by unfold move; dsimp only; omega)]
    split <;> rfl
  · rw [← Int.add_assoc, place_move]

/-- An assignment that is moved with its columns has the same text. -/
theorem assign_move (pairs : List (Text × Text)) (terminator : Text) {start : Int} (h : 0 ≤ start)
    (shift : Int) {k : Int} (hk : 0 ≤ k) :
    assign columns pairs terminator (start + k) (shift + k) =
      assign columns pairs terminator start shift := by
  have hstart : ({ start := start + k } : Line) = Line.move { start } k := rfl
  have hfront : ∀ (field : Text) (target : Int) (line : Line), 0 ≤ line.start →
      0 ≤ (line.place field target).start := by
    intro field target line hline
    rw [start_place]
    exact hline
  cases pairs with
  | nil => simp only [assign, ← Int.add_assoc, hstart, place_move, append_move, text_move]
  | cons pair others =>
      unfold assign
      dsimp only
      rw [foldl_pairs, foldl_pairs, hstart, ← Int.add_assoc, ← Int.add_assoc,
        place_move, place_move, place_equalsColumn_move columns (hfront _ _ _ (hfront _ _ _ h)) hk]
      rfl

/-! ## Layouts on one line -/

section
variable (start shift : Int)

theorem oneLine_port {fields : Declaration} (h : fields.OneLine) :
    OneLine (port columns fields start shift) := by
  simp only [port, oneLine_placeTerminator, oneLine_place, oneLine_appendWord, oneLine_nil,
    h.keyword, h.modifiers, h.signing, h.range, h.names, h.terminator, and_self]

theorem oneLine_signal {fields : Declaration} (h : fields.OneLine) :
    OneLine (signal columns fields start shift) := by
  unfold signal
  split
  · simp only [scalar, oneLine_placeTerminator, oneLine_place, oneLine_appendWord, oneLine_nil,
      h.keyword, h.modifiers, h.signing, h.range, h.names, h.terminator, and_self]
  · simp only [array, oneLine_placeTerminator, oneLine_place, oneLine_appendWord, oneLine_nil,
      h.keyword, h.modifiers, h.signing, h.range, h.names, h.dimensions, h.terminator, and_self]

theorem oneLine_parameter {fields : Parameter} (hkeyword : OneLine fields.keyword)
    (hmodifiers : OneLine fields.modifiers) (hname : OneLine fields.name)
    (hvalue : OneLine fields.value) (hterminator : OneLine fields.terminator) :
    OneLine (parameter columns fields start shift) := by
  have hequals : OneLine "=" := by decide
  unfold parameter
  split
  · simp only [oneLine_placeTerminator, oneLine_place, oneLine_appendWord, oneLine_nil, hkeyword,
      hmodifiers, hname, hterminator, and_self]
  · simp only [oneLine_placeTerminator, oneLine_place, oneLine_appendWord, Line.oneLine_append,
      Text.oneLine_append, oneLine_nil, hkeyword, hmodifiers, hname, hvalue, hterminator,
      oneLine_space, hequals, and_self]

theorem oneLine_assign {pairs : List (Text × Text)}
    (h : ∀ pair ∈ pairs, OneLine pair.1 ∧ OneLine pair.2) {terminator : Text}
    (hterminator : OneLine terminator) : OneLine (assign columns pairs terminator start shift) := by
  have hkeyword : OneLine "assign" := by decide
  have hequals : OneLine "=" := by decide
  have hpair : ∀ pair ∈ pairs, OneLine (", " ++ pair.1 ++ " = " ++ pair.2) := by
    intro pair hmem
    obtain ⟨htarget, hvalue⟩ := h pair hmem
    have hcomma : OneLine ", " := by decide
    have hmiddle : OneLine " = " := by decide
    simp only [Text.oneLine_append, htarget, hvalue, hcomma, hmiddle, and_self]
  cases pairs with
  | nil =>
      simp only [assign, Line.oneLine_append, oneLine_place, oneLine_nil, hkeyword, hterminator,
        and_self]
  | cons first others =>
      obtain ⟨⟨htarget, hvalue⟩, -⟩ := List.forall_mem_cons.1 h
      have hothers : OneLine (others.flatMap fun pair => ", " ++ pair.1 ++ " = " ++ pair.2) :=
        oneLine_flatMap fun pair hmem => hpair pair (List.mem_cons_of_mem _ hmem)
      unfold assign
      dsimp only
      rw [foldl_pairs]
      simp only [Line.oneLine_append, Text.oneLine_append, oneLine_place, oneLine_nil, hkeyword,
        hequals, oneLine_space, htarget, hvalue, hothers, hterminator, and_self]

end

/-! ## Layouts at a level -/

/-- The start of a line moves with its columns from the natural level on. -/
theorem start_eq {level : Int} (natural : Int) (h : natural ≤ level) :
    level * indentWidth = natural * indentWidth + columnShift level natural := by
  unfold columnShift indentWidth
  omega

variable {level : Int} (h : 1 ≤ level)
include h

/-- A port has the same text at every level. -/
theorem port_atLevel (fields : Declaration) :
    port columns fields (level * indentWidth) (columnShift level) =
      port columns fields (1 * indentWidth) 0 := by
  rw [start_eq 1 h, ← port_move columns fields _ 0 (columnShift level), Int.zero_add]

/-- A signal has the same text at every level. -/
theorem signal_atLevel (fields : Declaration) :
    signal columns fields (level * indentWidth) (columnShift level) =
      signal columns fields (1 * indentWidth) 0 := by
  rw [start_eq 1 h, ← signal_move columns fields _ 0 (columnShift level), Int.zero_add]

/-- A parameter has the same text at every level. -/
theorem parameter_atLevel (fields : Parameter) :
    parameter columns fields (level * indentWidth) (columnShift level) =
      parameter columns fields (1 * indentWidth) 0 := by
  rw [start_eq 1 h, ← parameter_move columns fields _ 0 (columnShift level), Int.zero_add]

/-- A parameter below another one is a level deeper than its columns. -/
theorem parameter_below_atLevel (fields : Parameter) :
    parameter columns fields ((level + 1) * indentWidth) (columnShift level) =
      parameter columns fields (2 * indentWidth) 0 := by
  have hstart : (level + 1) * indentWidth = 2 * indentWidth + (columnShift level : Int) := by
    rw [Int.add_mul, start_eq 1 h]
    omega
  rw [hstart, ← parameter_move columns fields _ 0 (columnShift level), Int.zero_add]

/-- An assignment has the same text at every level. -/
theorem assign_atLevel (pairs : List (Text × Text)) (terminator : Text) :
    assign columns pairs terminator (level * indentWidth) (columnShift level) =
      assign columns pairs terminator (1 * indentWidth) 0 := by
  have hstart : (0 : Int) ≤ 1 * indentWidth := by decide
  have hmove := assign_move columns pairs terminator hstart 0
    (Int.natCast_nonneg (columnShift level))
  rwa [← start_eq 1 h, Int.zero_add] at hmove

omit columns in
/-- A connection has the same text at every level, one level below its instance. -/
theorem connection_atLevel (name value : Text) (column : Int) (terminator : Text) :
    connection name value (column + columnShift (level + 1) 2) terminator
        ((level + 1) * indentWidth) =
      connection name value column terminator (2 * indentWidth) := by
  rw [start_eq 2 (by omega), connection_move]

end Layout
end VerilogLayout

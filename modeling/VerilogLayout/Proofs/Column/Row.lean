import VerilogLayout.Column.Layout

/-!
# Where the fields of a line stand

A line counts its columns from its text, so a printer that only keeps a `Cursor` beside it is never
wrong: `cursor_foldl`. What a layout writes is described by a list of fields, each with the rule for
its column; `IsRow` says that a text holds them whole and in order at these columns and nothing but
spaces between them, and `layout_columns` says it of every layout.
-/

namespace VerilogLayout

/-! ## Lines that grow call by call -/

/-- What makes a line longer. -/
inductive Call where
  | append (text : Text)
  | place (field : Text) (target gap : Int)
deriving DecidableEq, Repr

/-- Where a printer stands that does not look at its text: the column, counted on, and whether
nothing has been written yet. -/
structure Cursor where
  column : Int
  fresh : Bool := true
deriving DecidableEq, Repr

namespace Cursor

/-- The cursor behind a call. -/
def next (cursor : Cursor) : Call → Cursor
  | .append text =>
      { column := cursor.column + text.length, fresh := cursor.fresh && text.isEmpty }
  | .place field target gap =>
      if field.isEmpty then
        cursor
      else
        let least := if cursor.fresh then 0 else gap.toNat
        { column := cursor.column + max least (pad cursor.column target) + field.length
          fresh := false }

end Cursor

namespace Line

/-- The line behind a call. -/
def next (line : Line) : Call → Line
  | .append text => line.append text
  | .place field target gap => line.place field target gap

/-- The cursor that a line has. -/
def cursor (line : Line) : Cursor where
  column := line.start + line.text.length
  fresh := line.text.isEmpty

/-- Appending a text moves the cursor as the call does. -/
theorem cursor_append (line : Line) (text : Text) :
    (line.append text).cursor = line.cursor.next (.append text) := by
  have hfresh : (line.text ++ text).isEmpty = (line.text.isEmpty && text.isEmpty) := by
    cases line.text <;> rfl
  have hlength : line.start + ((line.text ++ text).length : Int) =
      line.start + line.text.length + text.length := by
    rw [List.length_append, Int.natCast_add, Int.add_assoc]
  exact (Cursor.mk.injEq _ _ _ _).mpr ⟨hlength, hfresh⟩

/-- The cursor of a line follows its calls. -/
theorem cursor_next (line : Line) (call : Call) :
    (line.next call).cursor = line.cursor.next call := by
  cases call with
  | append text => exact cursor_append line text
  | place field target gap =>
      unfold next place
      dsimp only [Cursor.next]
      split
      · rfl
      · next hfield =>
          rw [cursor_append, Cursor.next, Cursor.mk.injEq]
          refine ⟨?_, ?_⟩
          · rw [List.length_append, Text.spaces, List.length_replicate, Int.natCast_add,
              ← Int.add_assoc]
            rfl
          · rw [Bool.and_eq_false_iff]
            exact .inr (by simpa using fun _ => hfield)

/-- After any calls the counted column is the start and the length of the text. -/
theorem cursor_foldl (calls : List Call) (line : Line) :
    (calls.foldl next line).cursor = calls.foldl Cursor.next line.cursor := by
  induction calls generalizing line with
  | nil => rfl
  | cons call calls ih => rw [List.foldl_cons, List.foldl_cons, ih, cursor_next]

/-- No call moves the start of a line. -/
theorem start_next (line : Line) (call : Call) : (line.next call).start = line.start := by
  cases call with
  | append text => rfl
  | place field target gap =>
      unfold next place
      dsimp only
      split <;> rfl

/-- No calls move the start of a line. -/
theorem start_foldl (calls : List Call) (line : Line) :
    (calls.foldl next line).start = line.start := by
  induction calls generalizing line with
  | nil => rfl
  | cons call calls ih => rw [List.foldl_cons, ih, start_next]

end Line

/-! ## Rows of fields -/

/-- How a field finds its column. -/
inductive Rule where
  /-- At its target, or one space behind the text in front if that is longer. The first text of a
  line needs no space. -/
  | aligned (target : Int)
  /-- At its target, or directly behind the text in front if that is longer. -/
  | closing (target : Int)
  /-- One space behind the text in front. -/
  | spaced
  /-- Directly behind the text in front. -/
  | attached
deriving DecidableEq, Repr

/-- The column of a field on a line that starts at `start`, behind a text that ends at `stop`. -/
def Rule.column (start stop : Int) : Rule → Int
  | .aligned target => if stop = start then max target start else max target (stop + 1)
  | .closing target => max target stop
  | .spaced => stop + 1
  | .attached => stop

/-- `IsRow start stop fields text` holds if `text`, which stands at column `stop` of a line from
`start` on, holds the fields whole and in order, each at its column and behind spaces only. -/
inductive IsRow (start : Int) : Int → List (Rule × Text) → Text → Prop where
  | nil (stop : Int) : IsRow start stop [] []
  | cons {stop : Int} {gap : Nat} {rule : Rule} {field rest : Text} {fields : List (Rule × Text)} :
      stop + gap = rule.column start stop →
      IsRow start (stop + gap + field.length) fields rest →
      IsRow start stop ((rule, field) :: fields) (Text.spaces gap ++ (field ++ rest))

/-- The fields that are not empty. -/
def present (fields : List (Rule × Text)) : List (Rule × Text) :=
  fields.filter fun field => !field.2.isEmpty

/-- A semicolon has a column, any other terminator has none. -/
def terminatorRule (terminator : Text) (column : Int) : Rule :=
  if terminator = (";" : Text) then .closing column else .attached

/-- The fields that are present are found one by one. -/
theorem present_cons_cons (field next : Rule × Text) (fields : List (Rule × Text)) :
    present (field :: next :: fields) = present [field] ++ present (next :: fields) :=
  List.filter_append [field] (next :: fields)

/-- A field with a text is present. -/
theorem present_single {rule : Rule} {field : Text} (h : field ≠ []) :
    present [(rule, field)] = [(rule, field)] := by
  simp [present, h]

namespace IsRow

variable {start stop : Int} {fields others : List (Rule × Text)} {text : Text}

/-- Where a text ends that starts with a field. -/
theorem stop_eq (stop : Int) (gap : Nat) (field rest : Text) :
    stop + (Text.spaces gap ++ (field ++ rest)).length =
      stop + gap + field.length + rest.length := by
  rw [List.length_append, List.length_append, Text.spaces, List.length_replicate]
  omega

/-- One more field at the end. -/
theorem concat (h : IsRow start stop fields text) {gap : Nat} {rule : Rule} {field : Text}
    (hgap : stop + text.length + gap = rule.column start (stop + text.length)) :
    IsRow start stop (fields ++ [(rule, field)]) (text ++ (Text.spaces gap ++ field)) := by
  induction h with
  | nil stop =>
      rw [List.length_nil, Int.natCast_zero, Int.add_zero] at hgap
      have hrow : IsRow start stop [(rule, field)] (Text.spaces gap ++ (field ++ [])) :=
        .cons hgap (.nil _)
      rwa [List.append_nil] at hrow
  | @cons stop gap' rule' field' rest fields hfirst _ ih =>
      rw [stop_eq] at hgap
      have hrow := IsRow.cons hfirst (ih hgap)
      simpa only [List.cons_append, List.append_assoc] using hrow

/-- A row is a row of its first fields and a row of the others behind it. -/
theorem exists_append (h : IsRow start stop (fields ++ others) text) :
    ∃ front back, text = front ++ back ∧ IsRow start stop fields front ∧
      IsRow start (stop + front.length) others back := by
  induction fields generalizing stop text with
  | nil => exact ⟨[], text, rfl, .nil stop, by simpa using h⟩
  | cons field fields ih =>
      cases h with
      | @cons _ gap rule field rest _ hgap hrest =>
          obtain ⟨front, back, rfl, hfront, hback⟩ := ih hrest
          refine ⟨Text.spaces gap ++ (field ++ front), back, by simp, .cons hgap hfront, ?_⟩
          rwa [stop_eq]

/-- A field stands exactly at its target if the text in front of it ends before. -/
theorem exists_at_target {target : Int} {field : Text}
    (h : IsRow start start (fields ++ (.aligned target, field) :: others) text) :
    ∃ front back gap, text = front ++ (Text.spaces gap ++ (field ++ back)) ∧
      IsRow start start fields front ∧
        (start + front.length < target → start + front.length + gap = target) := by
  obtain ⟨front, back, rfl, hfront, hback⟩ := exists_append h
  cases hback with
  | @cons _ gap _ _ rest _ hgap _ =>
      refine ⟨front, rest, gap, rfl, hfront, fun hlt => hgap.trans ?_⟩
      rw [Rule.column]
      split <;> omega

end IsRow

/-! ## What a layout does to a row -/

namespace Line

/-- The text of the line is a row of fields from the column `start` on. -/
structure Shows (line : Line) (start : Int) (fields : List (Rule × Text)) : Prop where
  start_eq : line.start = start
  row : IsRow start start fields line.text

theorem shows_nil (start : Int) : Shows { start } start [] :=
  ⟨rfl, .nil start⟩

namespace Shows

variable {line : Line} {start : Int} {fields : List (Rule × Text)} (h : line.Shows start fields)
include h

/-- A field behind its gap stands where its rule puts it. -/
theorem concat {gap : Nat} {rule : Rule}
    (hgap : line.column + gap = rule.column start line.column) (field : Text) :
    (line.append (Text.spaces gap ++ field)).Shows start (fields ++ [(rule, field)]) := by
  refine ⟨h.start_eq, h.row.concat ?_⟩
  rwa [← h.start_eq] at hgap ⊢

/-- An attached text stands at the end of the line. -/
theorem attached (text : Text) : (line.append text).Shows start (fields ++ [(.attached, text)]) :=
  @concat _ _ _ h 0 _ (Int.add_zero _) text

/-- A spaced word stands one space behind the line. -/
theorem spaced (word : Text) :
    (line.append (" " ++ word)).Shows start (fields ++ [(.spaced, word)]) :=
  @concat _ _ _ h 1 _ rfl word

/-- Nothing is written of an absent field. -/
theorem absent (rule : Rule) : line.Shows start (fields ++ present [(rule, [])]) := by
  rwa [show present [(rule, [])] = [] from rfl, List.append_nil]

/-- The line is empty if it ends where it starts. -/
theorem column_eq_start_iff : line.column = start ↔ line.text = [] := by
  rw [← h.start_eq, column, ← List.length_eq_zero_iff]
  omega

/-- A field that is placed is aligned. -/
theorem place (field : Text) (target : Int) :
    (line.place field target).Shows start (fields ++ present [(.aligned target, field)]) := by
  by_cases hfield : field = []
  · rw [hfield]
    exact h.absent _
  · rw [present_single hfield, Line.place, if_neg (by simpa using hfield)]
    refine h.concat ?_ field
    have hempty := h.column_eq_start_iff
    rw [Rule.column, pad]
    by_cases htext : line.text = []
    · have hcolumn := hempty.2 htext
      rw [htext, List.isEmpty_nil, if_pos rfl, if_pos hcolumn]
      omega
    · rw [if_neg (by simpa using htext), if_neg (mt hempty.1 htext)]
      omega

/-- A field that is placed without a gap closes the line. -/
theorem place_closing (field : Text) (target : Int) :
    (line.place field target 0).Shows start (fields ++ present [(.closing target, field)]) := by
  by_cases hfield : field = []
  · rw [hfield]
    exact h.absent _
  · rw [present_single hfield, Line.place, if_neg (by simpa using hfield)]
    refine h.concat ?_ field
    rw [Rule.column, pad, Int.toNat_zero, ite_self]
    omega

/-- A word that is appended is spaced. -/
theorem appendWord (word : Text) :
    (Layout.appendWord line word).Shows start (fields ++ present [(.spaced, word)]) := by
  by_cases hword : word = []
  · rw [hword]
    exact h.absent _
  · rw [present_single hword, Layout.appendWord, if_neg (by simpa using hword)]
    exact h.spaced word

/-- A terminator that is placed follows its own rule. -/
theorem placeTerminator (terminator : Text) (column : Int) :
    (Layout.placeTerminator line terminator column).Shows start
      (fields ++ present [(terminatorRule terminator column, terminator)]) := by
  unfold Layout.placeTerminator terminatorRule
  split
  · exact h.place_closing terminator column
  · by_cases hterminator : terminator = []
    · rw [hterminator]
      exact ⟨h.start_eq, by simpa [append] using (h.absent .attached).row⟩
    · rw [present_single hterminator]
      exact h.attached terminator

end Shows
end Line

/-! ## The layouts -/

namespace Layout

variable (columns : Columns) (shift : Int)

/-- The fields of a line of ports. -/
def portFields (fields : Declaration) : List (Rule × Text) :=
  present
    [(.aligned (columns .portKeyword + shift), fields.keyword),
      (.spaced, fields.modifiers),
      (.aligned (columns .portSigning + shift), fields.signing),
      (.aligned (columns .portRange + shift), fields.range),
      (.aligned (columns .portName + shift), fields.names),
      (terminatorRule fields.terminator (columns .portEnd + shift), fields.terminator)]

/-- The fields of a line of signals; arrays have columns of their own. -/
def signalFields (fields : Declaration) : List (Rule × Text) :=
  if fields.dimensions = [] then
    present
      [(.aligned (columns .signalKeyword + shift), fields.keyword),
        (.spaced, fields.modifiers),
        (.aligned (columns .signalSigning + shift), fields.signing),
        (.aligned (columns .signalRange + shift), fields.range),
        (.aligned (columns .signalName + shift), fields.names),
        (terminatorRule fields.terminator (columns .signalEnd + shift), fields.terminator)]
  else
    present
      [(.aligned (columns .arrayKeyword + shift), fields.keyword),
        (.spaced, fields.modifiers),
        (.aligned (columns .arraySigning + shift), fields.signing),
        (.aligned (columns .arrayRange + shift), fields.range),
        (.aligned (columns .arrayName + shift), fields.names),
        (.aligned (columns .arrayDimensions + shift), fields.dimensions),
        (terminatorRule fields.terminator (columns .arrayEnd + shift), fields.terminator)]

/-- The fields of a line with a parameter; without a value there is no equals sign. -/
def parameterFields (fields : Parameter) : List (Rule × Text) :=
  present
    [(.aligned (columns .parameterKeyword + shift), fields.keyword),
      (.spaced, fields.modifiers),
      (.aligned (columns .parameterName + shift), fields.name),
      (.aligned (columns .parameterEquals + shift), if fields.value = [] then [] else "="),
      (.spaced, fields.value),
      (terminatorRule fields.terminator (columns .parameterEnd + shift), fields.terminator)]

/-- The fields of an assignment: those of its first pair, the other pairs and the terminator. An
absent value leaves its space. -/
def assignFields (target value : Text) (others : List (Text × Text)) (terminator : Text) :
    List (Rule × Text) :=
  present
    [(.aligned (columns .assignKeyword + shift), "assign"),
      (.aligned (columns .assignTarget + shift), target),
      (.aligned (if columns .assignEquals = 0 then 0 else columns .assignEquals + shift), "=")] ++
    [(.spaced, value),
      (.attached, others.flatMap fun pair => ", " ++ pair.1 ++ " = " ++ pair.2),
      (.attached, terminator)]

/-- The fields of a connection. -/
def connectionFields (name value : Text) (column : Int) (terminator : Text) : List (Rule × Text) :=
  [(.attached, "." ++ name), (.aligned column, "(" ++ value ++ ")"), (.attached, terminator)]

variable (start : Int)

theorem isRow_port (fields : Declaration) :
    IsRow start start (portFields columns shift fields) (port columns fields start shift) := by
  have hrow := (((((Line.shows_nil start).place fields.keyword (columns .portKeyword + shift)
    ).appendWord fields.modifiers).place fields.signing (columns .portSigning + shift)).place
      fields.range (columns .portRange + shift)).place fields.names (columns .portName + shift)
  have hend := hrow.placeTerminator fields.terminator (columns .portEnd + shift)
  simp only [portFields, present_cons_cons, ← List.append_assoc]
  exact hend.row

theorem isRow_scalar (fields : Declaration) (h : fields.dimensions = []) :
    IsRow start start (signalFields columns shift fields) (scalar columns fields start shift) := by
  have hrow := (((((Line.shows_nil start).place fields.keyword (columns .signalKeyword + shift)
    ).appendWord fields.modifiers).place fields.signing (columns .signalSigning + shift)).place
      fields.range (columns .signalRange + shift)).place fields.names (columns .signalName + shift)
  have hend := hrow.placeTerminator fields.terminator (columns .signalEnd + shift)
  rw [signalFields, if_pos h]
  simp only [present_cons_cons, ← List.append_assoc]
  exact hend.row

theorem isRow_array (fields : Declaration) (h : fields.dimensions ≠ []) :
    IsRow start start (signalFields columns shift fields) (array columns fields start shift) := by
  have hrow := ((((((Line.shows_nil start).place fields.keyword (columns .arrayKeyword + shift)
    ).appendWord fields.modifiers).place fields.signing (columns .arraySigning + shift)).place
      fields.range (columns .arrayRange + shift)).place fields.names (columns .arrayName + shift)
        ).place fields.dimensions (columns .arrayDimensions + shift)
  have hend := hrow.placeTerminator fields.terminator (columns .arrayEnd + shift)
  rw [signalFields, if_neg h]
  simp only [present_cons_cons, ← List.append_assoc]
  exact hend.row

theorem isRow_signal (fields : Declaration) :
    IsRow start start (signalFields columns shift fields) (signal columns fields start shift) := by
  rw [signal]
  split
  · next h => exact isRow_scalar columns shift start fields (List.isEmpty_iff.1 h)
  · next h => exact isRow_array columns shift start fields (mt List.isEmpty_iff.2 h)

theorem isRow_parameter (fields : Parameter) :
    IsRow start start (parameterFields columns shift fields)
      (parameter columns fields start shift) := by
  have hname := (((Line.shows_nil start).place fields.keyword (columns .parameterKeyword + shift)
    ).appendWord fields.modifiers).place fields.name (columns .parameterName + shift)
  by_cases hvalue : fields.value = []
  · have hend := ((hname.absent (.aligned (columns .parameterEquals + shift))).absent
      .spaced).placeTerminator fields.terminator (columns .parameterEnd + shift)
    have hempty : fields.value.isEmpty = true := List.isEmpty_iff.2 hvalue
    rw [parameterFields, parameter, if_pos hempty, if_pos hvalue, hvalue]
    simp only [present_cons_cons, ← List.append_assoc]
    exact hend.row
  · have hpair := (hname.place "=" (columns .parameterEquals + shift)).spaced fields.value
    rw [← present_single hvalue] at hpair
    have hend := hpair.placeTerminator fields.terminator (columns .parameterEnd + shift)
    have hempty : ¬ fields.value.isEmpty = true := mt List.isEmpty_iff.1 hvalue
    rw [parameterFields, parameter, if_neg hempty, if_neg hvalue]
    simp only [present_cons_cons, ← List.append_assoc]
    exact hend.row

/-- The other pairs of an assignment follow directly. -/
theorem foldl_pairs (others : List (Text × Text)) (line : Line) :
    others.foldl (fun line (target, value) => line.append (", " ++ target ++ " = " ++ value)) line =
      line.append (others.flatMap fun pair => ", " ++ pair.1 ++ " = " ++ pair.2) := by
  induction others generalizing line with
  | nil => simp [Line.append]
  | cons pair others ih =>
      rw [List.foldl_cons, ih]
      simp [Line.append]

theorem isRow_assign (target value : Text) (others : List (Text × Text)) (terminator : Text) :
    IsRow start start (assignFields columns shift target value others terminator)
      (assign columns ((target, value) :: others) terminator start shift) := by
  have hequals := (((Line.shows_nil start).place "assign" (columns .assignKeyword + shift)).place
    target (columns .assignTarget + shift)).place "=" (equalsColumn columns shift)
  have hend := ((hequals.spaced value).attached
    (others.flatMap fun pair => ", " ++ pair.1 ++ " = " ++ pair.2)).attached terminator
  rw [List.append_assoc, List.append_assoc] at hend
  rw [assign, assignFields]
  dsimp only
  rw [foldl_pairs]
  simp only [present_cons_cons, ← List.append_assoc]
  exact hend.row

theorem isRow_connection (name value : Text) (column : Int) (terminator : Text) :
    IsRow start start (connectionFields name value column terminator)
      (connection name value column terminator start) := by
  have hvalue := ((Line.shows_nil start).attached ("." ++ name)).place ("(" ++ value ++ ")") column
  rw [present_single (by simp)] at hvalue
  exact (hvalue.attached terminator).row

end Layout

/-- A line always knows its column, and every layout writes its fields at the columns of their
rules: so a field stands exactly at its target unless the text in front of it reaches that far. -/
theorem layout_columns (columns : Columns) (start shift : Int) :
    (∀ calls : List Call,
      (calls.foldl Cursor.next { column := start }).column =
        start + (calls.foldl Line.next { start }).text.length) ∧
      (∀ fields, IsRow start start (Layout.portFields columns shift fields)
        (Layout.port columns fields start shift)) ∧
      (∀ fields, IsRow start start (Layout.signalFields columns shift fields)
        (Layout.signal columns fields start shift)) ∧
      (∀ fields, IsRow start start (Layout.parameterFields columns shift fields)
        (Layout.parameter columns fields start shift)) ∧
      (∀ target value others terminator,
        IsRow start start (Layout.assignFields columns shift target value others terminator)
          (Layout.assign columns ((target, value) :: others) terminator start shift)) ∧
      (∀ name value column terminator,
        IsRow start start (Layout.connectionFields name value column terminator)
          (Layout.connection name value column terminator start)) ∧
      ∀ front target field back text,
        IsRow start start (front ++ (.aligned target, field) :: back) text →
          ∃ before gap after, text = before ++ (Text.spaces gap ++ (field ++ after)) ∧
            IsRow start start front before ∧
              (start + before.length < target → start + before.length + gap = target) := by
  refine ⟨fun calls => ?_, Layout.isRow_port columns shift start,
    Layout.isRow_signal columns shift start, Layout.isRow_parameter columns shift start,
    Layout.isRow_assign columns shift start, Layout.isRow_connection start, ?_⟩
  · have hcursor : Line.cursor { start } = { column := start } :=
      congrArg (Cursor.mk · true) (Int.add_zero start)
    rw [← hcursor, ← Line.cursor_foldl]
    exact congrArg (· + _) (Line.start_foldl calls { start })
  · intro front target field back text h
    obtain ⟨before, after, gap, htext, hbefore, htarget⟩ := h.exists_at_target
    exact ⟨before, gap, after, htext, hbefore, htarget⟩

/-- A range behind a direction, and names that are driven behind their column by the range. -/
theorem layout_columns_port :
    let fields : Declaration :=
      { keyword := "input", range := "[ADDRESS_WIDTH_OF_BUS-1:0 ]", names := "address",
        terminator := ";" }
    let text := Layout.port Columns.standard fields 0 8
    let range : Rule × Text := (.aligned 33, "[ADDRESS_WIDTH_OF_BUS-1:0 ]")
    let behind : List (Rule × Text) := [(.aligned 58, "address"), (.closing 88, ";")]
    IsRow 0 0 ([(.aligned 12, ("input" : Text))] ++ range :: behind) text ∧
      ∃ before gap after, text = before ++ (Text.spaces gap ++ (range.2 ++ after)) ∧
        IsRow 0 0 [(.aligned 12, ("input" : Text))] before ∧
          (0 + (before.length : Int) < 33 → 0 + (before.length : Int) + gap = 33) := by
  intro fields text range behind
  obtain ⟨-, hport, -, -, -, -, hstands⟩ := layout_columns Columns.standard 0 8
  have hrow : IsRow 0 0 ([(.aligned 12, ("input" : Text))] ++ range :: behind) text := hport fields
  exact ⟨hrow, hstands _ _ _ _ _ hrow⟩

end VerilogLayout

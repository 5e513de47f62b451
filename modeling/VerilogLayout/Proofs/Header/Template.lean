import VerilogLayout.Proofs.Header.Whole
import VerilogLayout.Proofs.Source.Connection
import VerilogLayout.Template.Instance

/-!
# Instances of printed headers

A template has one line for each connection, which `AreConnections` spells out without a column: a
gap stands between the name and the value, and a comma behind all lines but the last. All other
lines of a template start with something else. `ofSource?_printed` says that a printed header is
read back and what the lines of its instances are.
-/

namespace VerilogLayout

open Text (AllBlank Stops)

namespace Template

/-- The line of a connection, with `gap` spaces between the name and the value. -/
def row (gap : Nat) (name value terminator : Text) : Text :=
  indentFor 1 ++ .char '.' ::
    (name ++ (Text.spaces gap ++ .char '(' :: (value ++ .char ')' :: terminator)))

/-- One line for each connection, in their order, and a comma behind all but the last. -/
inductive AreConnections : List (Text × Text) → List Text → Prop
  | nil : AreConnections [] []
  | last (gap : Nat) (name value : Text) :
      0 < gap → AreConnections [(name, value)] [row gap name value []]
  | more (gap : Nat) (name value : Text) (next : Text × Text) (rest : List (Text × Text))
      (rows : List Text) :
      0 < gap → AreConnections (next :: rest) rows →
      AreConnections ((name, value) :: next :: rest) (row gap name value [.char ','] :: rows)

/-- The lines of the connections are the connections in their order. -/
theorem areConnections_connectionLines (column : Nat) (list : List (Text × Text)) :
    AreConnections list (connectionLines column list) := by
  induction list with
  | nil => exact .nil
  | cons connection rest ih =>
      obtain ⟨name, value⟩ := connection
      cases rest with
      | nil =>
          obtain ⟨gap, hgap, hline⟩ := LineForm.exists_connection name value [] column start
          have hrow : connectionLines column [(name, value)] = [row gap name value []] :=
            congrArg (fun line => [indentFor 1 ++ line]) hline
          rw [hrow]
          exact .last gap name value hgap
      | cons next others =>
          obtain ⟨gap, hgap, hline⟩ :=
            LineForm.exists_connection name value [.char ','] column start
          have hrows : connectionLines column ((name, value) :: next :: others) =
              row gap name value [.char ','] :: connectionLines column (next :: others) :=
            congrArg (fun line => (indentFor 1 ++ line) :: connectionLines column (next :: others))
              hline
          rw [hrows]
          exact .more gap name value next others _ hgap ih

namespace AreConnections

variable {list : List (Text × Text)} {rows : List Text}

/-- Connections whose names and values are one line each are one line each. -/
theorem oneLine (h : AreConnections list rows)
    (hlist : ∀ connection ∈ list, .char '\n' ∉ connection.1 ∧ .char '\n' ∉ connection.2) :
    ∀ line ∈ rows, .char '\n' ∉ line := by
  have hrow : ∀ (gap : Nat) {name value terminator : Text}, .char '\n' ∉ name → .char '\n' ∉ value →
      .char '\n' ∉ terminator → .char '\n' ∉ row gap name value terminator := by
    intro gap name value terminator hname hvalue hterminator
    have hspaces : ∀ n, .char '\n' ∉ Text.spaces n :=
      fun n hmem => absurd (List.eq_of_mem_replicate hmem) (by decide)
    simp [row, indentFor, hspaces, hname, hvalue, hterminator]
  induction h with
  | nil => exact List.forall_mem_nil _
  | last gap name value _ =>
      obtain ⟨hname, hvalue⟩ := hlist _ List.mem_cons_self
      exact List.forall_mem_singleton.2 (hrow gap hname hvalue List.not_mem_nil)
  | more gap name value next rest rows _ _ ih =>
      obtain ⟨⟨hname, hvalue⟩, hrest⟩ := List.forall_mem_cons.1 hlist
      exact List.forall_mem_cons.2 ⟨hrow gap hname hvalue (by decide), ih hrest⟩

end AreConnections

/-- A line that is no connection of an instance. -/
def IsOther (line : Text) : Prop :=
  ¬ indentFor 1 ++ [.char '.'] <+: line

/-- A line that is not indented is no connection. -/
theorem isOther_cons {c : CodePoint} (h : c ≠ ' ') (line : Text) : IsOther (c :: line) :=
  fun hprefix => h (List.cons_prefix_cons.1 hprefix).1.symm

/-- A line that starts with a name is no connection. -/
theorem isOther_name {name : Text} (h : Scan.IsName name) (rest : Text) :
    IsOther (name ++ rest) := by
  obtain ⟨c, s, rfl⟩ := List.exists_cons_of_ne_nil h.ne_nil
  refine isOther_cons ?_ (s ++ rest)
  rintro rfl
  exact absurd (h.forall_mem ' ' List.mem_cons_self) (by decide)

/-- A line around the connections, which is one line if the name of the instance is. -/
structure IsFrame (instanceName line : Text) : Prop where
  other : IsOther line
  oneLine : .char '\n' ∉ instanceName → .char '\n' ∉ line

theorem not_mem_of_isName {name : Text} (h : Scan.IsName name) : .char '\n' ∉ name :=
  fun hmem => absurd (h.forall_mem '\n' hmem) (by decide)

end Template

namespace Text

/-- No word holds a blank. -/
theorem isBlank_of_mem_go {s word : Text} (hword : ∀ c ∈ word, isBlank c = false) :
    ∀ w ∈ words.go word s, ∀ c ∈ w, isBlank c = false := by
  have hclose : ∀ {word : Text}, (∀ c ∈ word, isBlank c = false) →
      ∀ w ∈ words.close word, ∀ c ∈ w, isBlank c = false := by
    intro word hword w hw c hc
    rw [words.close] at hw
    split at hw
    · cases hw
    · rw [List.mem_singleton.1 hw] at hc
      exact hword c (List.mem_reverse.1 hc)
  induction s generalizing word with
  | nil => exact hclose hword
  | cons c s ih =>
      rw [words.go]
      split
      · exact List.forall_mem_append.2 ⟨hclose hword, ih (List.forall_mem_nil _)⟩
      · next hc => exact ih (List.forall_mem_cons.2 ⟨Bool.eq_false_iff.2 hc, hword⟩)

/-- Splitting undoes joining up to what stands behind the lines. -/
theorem splitOn_intercalate_append {separator : CodePoint} {lines : List Text} (hne : lines ≠ [])
    (h : ∀ line ∈ lines, separator ∉ line) (s : Text) :
    List.splitOn separator (List.intercalate [separator] lines ++ separator :: s) =
      lines ++ List.splitOn separator s := by
  rw [List.splitOn_append_cons_self, List.splitOn_intercalate separator h hne]

/-- Words with spaces between them are one line. -/
theorem not_mem_intercalate_words (s : Text) : .char '\n' ∉ List.intercalate " " (words s) := by
  intro hmem
  rcases mem_of_mem_intercalate hmem with hmem | ⟨word, hword, hmem⟩
  · exact absurd hmem (by decide)
  · have hblank := isBlank_of_mem_go (s := s) (List.forall_mem_nil _) word hword '\n' hmem
    cases hblank

end Text

namespace ModuleHeader

open Template

variable {header : ModuleHeader}

/-- The parameters decide what stands in front of the list of ports. -/
theorem exists_opening (hname : Scan.IsName header.name) (columns : Columns)
    (instanceName : Text) :
    ∃ front parameterRows opening,
      (if header.parameters.isEmpty then
        (([], header.name ++ " " ++ instanceName ++ " (") : List Text × Text)
      else
        ((header.name ++ " #(") :: connectionLines (columns .parameterValue) header.parameters,
          ") " ++ instanceName ++ " (")) = (front ++ parameterRows, opening) ∧
      AreConnections header.parameters parameterRows ∧
      (∀ line ∈ front, IsFrame instanceName line) ∧
      ∀ rest : Text, .char '\n' ∉ rest → IsFrame instanceName (opening ++ rest) := by
  have hfeed := not_mem_of_isName hname
  cases hlist : header.parameters with
  | nil =>
      refine ⟨[], [], _, rfl, .nil, List.forall_mem_nil _, fun rest hrest => ⟨?_, ?_⟩⟩
      · rw [List.append_assoc, List.append_assoc, List.append_assoc]
        exact isOther_name hname _
      · intro hinstance
        simp [hfeed, hinstance, hrest]
  | cons parameter rest =>
      refine ⟨[_], _, _, rfl, areConnections_connectionLines (columns .parameterValue) _,
        List.forall_mem_singleton.2 ⟨isOther_name hname _, ?_⟩,
        fun rest hrest => ⟨isOther_cons (by decide) _, ?_⟩⟩
      · intro _
        simp [hfeed]
      · intro hinstance
        simp [hinstance, hrest]

/-- The lines of an instance are connections and the lines around them. -/
theorem exists_instanceLines (hname : Scan.IsName header.name) (columns : Columns)
    (instanceName : Text) :
    ∃ front parameterRows middle portRows back,
      header.instanceLines columns instanceName =
        front ++ parameterRows ++ middle ++ portRows ++ back ∧
      AreConnections header.parameters parameterRows ∧
      AreConnections (header.ports.map fun port => (port, port)) portRows ∧ middle ≠ [] ∧
      ∀ line ∈ front ++ middle ++ back, IsFrame instanceName line := by
  obtain ⟨front, parameterRows, opening, hlines, hparameters, hfront, hopening⟩ :=
    exists_opening hname columns instanceName
  cases hports : header.ports with
  | nil =>
      have hclosed := hopening ");" (by decide)
      refine ⟨front, parameterRows, [opening ++ ");"], [], [], ?_, hparameters, .nil,
        List.cons_ne_nil _ _, ?_⟩
      · rw [instanceLines, hlines, hports]
        simp
      · simpa [or_imp, forall_and] using ⟨hfront, hclosed⟩
  | cons port rest =>
      have hopen := hopening [] List.not_mem_nil
      rw [List.append_nil] at hopen
      have hclose : IsFrame instanceName ");" := ⟨isOther_cons (by decide) _, fun _ => by decide⟩
      refine ⟨front, parameterRows, [opening], _, [(");" : Text)], ?_, hparameters,
        areConnections_connectionLines (columns .portValue) _, List.cons_ne_nil _ _, ?_⟩
      · rw [instanceLines, hlines, hports]
        simp
      · simpa [or_imp, forall_and] using ⟨hfront, hopen, hclose⟩

/-- The same for the text of an instance, which may stand in a comment. -/
theorem exists_template (hname : Scan.IsName header.name) (columns : Columns) (name : Option Text)
    (commented : Bool) :
    ∃ front parameterRows middle portRows back,
      header.template columns name commented =
        List.intercalate "\n" (front ++ parameterRows ++ middle ++ portRows ++ back) ++
          ("\n" : Text) ∧
      AreConnections header.parameters parameterRows ∧
      AreConnections (header.ports.map fun port => (port, port)) portRows ∧ middle ≠ [] ∧
      ∀ line ∈ front ++ middle ++ back,
        IsFrame ((name.filter fun name => !name.isEmpty).getD header.instanceName) line := by
  obtain ⟨front, parameterRows, middle, portRows, back, hlines, hparameters, hports, hne,
    hframe⟩ :=
    exists_instanceLines hname columns
      ((name.filter fun name => !name.isEmpty).getD header.instanceName)
  cases commented with
  | false =>
      refine ⟨front, parameterRows, middle, portRows, back, ?_, hparameters, hports, hne, hframe⟩
      rw [template, hlines]
      rfl
  | true =>
      have hopen : IsFrame ((name.filter fun name => !name.isEmpty).getD header.instanceName)
          "/*" := ⟨isOther_cons (by decide) _, fun _ => by decide⟩
      have hclose : IsFrame ((name.filter fun name => !name.isEmpty).getD header.instanceName)
          "*/" := ⟨isOther_cons (by decide) _, fun _ => by decide⟩
      refine ⟨("/*" : Text) :: front, parameterRows, middle, portRows, back ++ [("*/" : Text)], ?_,
        hparameters, hports, hne, ?_⟩
      · rw [template, hlines]
        simp
      · rw [List.cons_append, List.cons_append, ← List.append_assoc]
        exact List.forall_mem_cons.2 ⟨hopen, List.forall_mem_append.2
          ⟨hframe, List.forall_mem_singleton.2 hclose⟩⟩

end ModuleHeader

/-! ## Printed headers -/

namespace HeaderText

variable {h : HeaderText}

/-- Ports without values get their own names. -/
theorem found_of_plain (hplain : ∀ p ∈ h.ports, p.initial = none) :
    h.ports.map PortText.found = h.ports.map PortText.name :=
  List.map_congr_left fun p hp => by rw [PortText.found, hplain p hp]

/-- What a header declares is one line each. -/
theorem oneLine_header (hwell : h.WellFormed) :
    (∀ p ∈ h.header.parameters, .char '\n' ∉ p.1 ∧ .char '\n' ∉ p.2) ∧
      ∀ p ∈ h.header.ports.map fun port => (port, port), .char '\n' ∉ p.1 ∧ .char '\n' ∉ p.2 := by
  constructor
  · intro p hp
    obtain ⟨parameter, hparameter, rfl⟩ := List.mem_map.1 hp
    have hname : Scan.IsName parameter.name := by
      rw [parameterTexts] at hparameter
      cases hlist : h.parameters with
      | none =>
          rw [hlist] at hparameter
          cases hparameter
      | some l =>
          rw [hlist] at hparameter
          exact ((hwell.parameters l hlist).entries parameter hparameter).name
    exact ⟨Template.not_mem_of_isName hname, Text.not_mem_intercalate_words parameter.value⟩
  · intro p hp
    simp only [header, List.map_map, List.mem_map] at hp
    obtain ⟨port, hport, rfl⟩ := hp
    have hfeed := Template.not_mem_of_isName (hwell.ports port hport).name
    exact ⟨hfeed, hfeed⟩

end HeaderText

/-- Reading undoes printing: the name, the parameters with the words of their values and the ports
of a printed header are read back in their order, whatever stands behind it. An instance made from
the text has one line for each of them, in this order, and no other line is a connection. -/
theorem ofSource?_printed {h : HeaderText} (hwell : h.WellFormed)
    (hplain : ∀ p ∈ h.ports, p.initial = none) {after : Text}
    (hline : Text.includes (h.text ++ after) "//" = false)
    (hblock : Text.includes (h.text ++ after) "/*" = false) (columns : Columns)
    (name : Option Text) (commented : Bool) :
    ModuleHeader.ofSource? (h.text ++ after) = .ok h.header ∧
      ∃ text front parameterRows middle portRows back,
        instanceOf? columns (h.text ++ after) name commented = .ok text ∧
        text = List.intercalate "\n" (front ++ parameterRows ++ middle ++ portRows ++ back) ++
          ("\n" : Text) ∧
        Template.AreConnections h.header.parameters parameterRows ∧
        Template.AreConnections (h.header.ports.map fun port => (port, port)) portRows ∧
        (∀ line ∈ front ++ middle ++ back, Template.IsOther line) ∧
        (∀ line ∈ parameterRows ++ portRows, .char '\n' ∉ line) ∧
        ((∀ n ∈ name, .char '\n' ∉ n) → List.splitOn (.char '\n') text =
          front ++ parameterRows ++ middle ++ portRows ++ back ++ [[]]) := by
  have hread : ModuleHeader.ofSource? (h.text ++ after) = .ok h.header := by
    rw [ModuleHeader.ofSource?_text hwell hline hblock, HeaderText.found_of_plain hplain]
    rfl
  have hheader : Scan.IsName h.header.name := hwell.name
  obtain ⟨front, parameterRows, middle, portRows, back, htext, hparameters, hports, hne,
    hframe⟩ := ModuleHeader.exists_template hheader columns name commented
  obtain ⟨hparameterLines, hportLines⟩ := HeaderText.oneLine_header hwell
  have hrows : ∀ line ∈ parameterRows ++ portRows, .char '\n' ∉ line := List.forall_mem_append.2
    ⟨hparameters.oneLine hparameterLines, hports.oneLine hportLines⟩
  refine ⟨hread, _, front, parameterRows, middle, portRows, back, ?_, htext, hparameters, hports,
    fun line hmem => (hframe line hmem).other, hrows, fun hname => ?_⟩
  · rw [instanceOf?, hread]
    rfl
  · -- The lines can only be told apart in the text if no name brings a line feed along.
    have hinstance : .char '\n' ∉
        (name.filter fun name => !name.isEmpty).getD h.header.instanceName := by
      cases hfilter : name.filter fun name => !name.isEmpty with
      | none =>
          have hfeed : .char '\n' ∉ h.header.name := Template.not_mem_of_isName hwell.name
          simpa [ModuleHeader.instanceName] using hfeed
      | some n => exact hname n (Option.filter_eq_some_iff.1 hfilter).1
    have hlines : ∀ line ∈ front ++ parameterRows ++ middle ++ portRows ++ back,
        .char '\n' ∉ line := by
      simp only [List.mem_append] at hrows hframe ⊢
      rintro line ((((hmem | hmem) | hmem) | hmem) | hmem)
      · exact (hframe line (.inl (.inl hmem))).oneLine hinstance
      · exact hrows line (.inl hmem)
      · exact (hframe line (.inl (.inr hmem))).oneLine hinstance
      · exact hrows line (.inr hmem)
      · exact (hframe line (.inr hmem)).oneLine hinstance
    have hall : front ++ parameterRows ++ middle ++ portRows ++ back ≠ [] := by
      simp [hne]
    rw [htext]
    exact Text.splitOn_intercalate_append hall hlines []

/-- A header with a call in a default, a range that touches a name and dimensions behind another. -/
def ram : HeaderText where
  before := []
  gap := " "
  beforePorts := " "
  blank := []
  name := "ram"
  parameters := some {
    before := " "
    behind := []
    blank := []
    entries := [{
      before := []
      gap := " "
      behind := " "
      lead := [.word "integer" " "]
      name := "W"
      value := " f(8,  1)" }] }
  ports := [
    { before := []
      behind := []
      lead := [.word "input" " ", .range "W-1:0" []]
      name := "d"
      dimensions := []
      initial := none },
    { before := "\n"
      behind := []
      lead := [.word "output" " "]
      name := "module"
      dimensions := [([], "0:3")]
      initial := none }]

/-- The header is read from its text, and an instance can be made. -/
theorem ofSource?_ram :
    ram.text ++ (";" : Text) =
      ("module ram #(parameter integer W = f(8,  1)) (input [W-1:0]d,\noutput module[0:3]);"
        : Text) ∧
    ModuleHeader.ofSource? (ram.text ++ (";" : Text)) =
      .ok { name := "ram", parameters := [("W", "f(8, 1)")], ports := ["d", "module"] } ∧
    ∃ text, instanceOf? .standard (ram.text ++ (";" : Text)) none false = .ok text := by
  have hline : Text.includes (ram.text ++ (";" : Text)) "//" = false := by decide +kernel
  have hblock : Text.includes (ram.text ++ (";" : Text)) "/*" = false := by decide +kernel
  obtain ⟨hread, text, -, -, -, -, -, htext, -⟩ :=
    ofSource?_printed (h := ram) (by decide) (by decide) hline hblock .standard none false
  exact ⟨by decide +kernel, hread, text, htext⟩

end VerilogLayout

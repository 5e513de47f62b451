import VerilogLayout.Proofs.Source.Ink
import VerilogLayout.Proofs.Tokens.List

/-!
# The tokens of declarations

`Declares node terminator parts` says that a node is the declaration of ports, nets or variables and
names its parts in the order of the grammar. A layout has an order of its own: it writes a delay
with the other modifiers in front of the range, it has no place for a comma that stands at the end
of a declaration, and none for the dimensions of a port. `format_declaration` says what is written,
and that it is the declaration as it stands if and only if it has none of these.
-/

namespace VerilogLayout

open Text Render

namespace Node

/-! ## The grammar -/

/-- A phrase that begins with a token written `lexeme`. -/
def Begins (lexeme : Text) (node : Node) : Prop :=
  ∃ first rest, node.children = first :: rest ∧ IsWritten lexeme first

/-- A word or a phrase between the keyword of a declaration and its range. -/
inductive IsModifier : Node → Prop where
  | word {node lexeme} : lexeme ∈ Keyword.modifiers → IsWritten lexeme node → IsModifier node
  | phrase {node} : isModifierPhrase node → node.kind? ≠ some .range → IsModifier node

/-- What may stand between the keyword of a declaration and its names. -/
def IsQualifier (node : Node) : Prop :=
  node.isToken ∧ (node.lexeme ∈ Keyword.signings ∨ node.lexeme ∈ Keyword.modifiers) ∨
    node.kind? = some .range ∨ isModifierPhrase node

/-- A declared name, which may have an initial value, and its dimensions. -/
structure IsName (nodes : List Node) : Prop where
  parts : ∃ names dimensions, nameParts nodes = names ++ dimensions ∧ names ≠ [] ∧
    (∀ part ∈ names, part.is Kind.isDimension = false) ∧
    ∀ part ∈ dimensions, part.is Kind.isDimension ∧ Begins "[" part

/-- The parts of a declaration. -/
structure Declared where
  keyword : Node
  /-- Types and strengths, `vectored` and `scalared`. -/
  modifiers : List Node
  signing : Option Node
  range : Option Node
  delay : Option Node
  named : List Node
  /-- The declared names, each with the comma behind it. -/
  entries : List Group
  /-- A comma at the end. -/
  comma : Option Node
  /-- A semicolon at the end. -/
  semicolon : Option Node

namespace Declared

/-- The parts in the order of the grammar. -/
def children (parts : Declared) : List Node :=
  parts.keyword :: (parts.modifiers ++ parts.signing.toList ++ parts.range.toList ++
    parts.delay.toList ++ parts.named ++ parts.comma.toList ++ parts.semicolon.toList)

/-- The dimensions of the only name that is declared. -/
def dimensions (parts : Declared) : List Node :=
  match parts.entries with
  | [entry] => (nameParts entry.items).filter (·.is Kind.isDimension)
  | _ => []

/-- The leaves of the names as they are written: a port has no dimensions. -/
def names (parts : Declared) (isPort : Bool) : List Node :=
  match parts.entries with
  | [entry] => leavesAll ((nameParts entry.items).filter fun part =>
      !(isPort && part.is Kind.isDimension))
  | entries => entries.flatMap Group.leaves

/-- The leaves of a declaration in the order in which they are written. -/
def written (parts : Declared) (isPort : Bool) (terminator : Option Node) : List Node :=
  parts.keyword.leaves ++ leavesAll (parts.modifiers ++ parts.delay.toList) ++
    parts.signing.toList ++ leavesAll parts.range.toList ++ parts.names isPort ++
    (parts.semicolon <|> terminator).toList

/-- Every part has its place in the layout: no delay stands behind a range or a sign, no comma at
the end, and no dimension behind a port. -/
structure InOrder (parts : Declared) (isPort : Bool) : Prop where
  delay : parts.delay = none ∨ parts.signing = none ∧ parts.range = none
  comma : parts.comma = none
  dimensions : isPort → parts.dimensions = []

end Declared

/-- The node is a declaration with these parts; its semicolon stands at its end or is passed in as
`terminator`, as a comma may be. -/
structure Declares (node : Node) (terminator : Option Node) (parts : Declared) : Prop where
  kind : node.is Kind.isPortDeclaration ∨ node.is Kind.isSignalDeclaration
  children : node.children = parts.children
  modifiers : ∀ part ∈ parts.modifiers, IsModifier part
  signing : ∀ part ∈ parts.signing, ∃ lexeme ∈ Keyword.signings, IsWritten lexeme part
  range : ∀ part ∈ parts.range, part.kind? = some .range ∧ Begins "[" part
  delay : ∀ part ∈ parts.delay, isModifierPhrase part ∧ part.kind? ≠ some .range ∧ Begins "#" part
  /-- No name begins as a qualifier does. -/
  front : ∀ part ∈ parts.named.head?, ¬ IsQualifier part
  named : Listed IsName (declaredItems parts.named) parts.entries
  lists : ∀ part ∈ parts.named, part.is Kind.isIdentifierList → part.children ≠ []
  last : ∀ part ∈ parts.named.getLast?, part.isLexeme ";" = false
  comma : ∀ part ∈ parts.comma, IsWritten "," part
  semicolon : ∀ part ∈ parts.semicolon, IsWritten ";" part
  ending : ∀ part ∈ terminator, IsWritten ";" part ∨ IsWritten "," part
  one : parts.semicolon = none ∨ terminator = none

/-! ## Qualifiers -/

/-- A modifier as it is written. -/
def modifierText (node : Node) : Text :=
  if node.isToken then node.lexeme else node.text

/-- A phrase of modifiers is no token. -/
theorem not_isToken_of_isModifierPhrase {node : Node} (h : isModifierPhrase node) :
    node.isToken = false := by
  rw [isModifierPhrase, Bool.and_eq_true, Bool.not_eq_true'] at h
  exact h.1

/-- What begins with a lexeme is no token itself. -/
theorem Begins.isToken_eq {node : Node} {lexeme : Text} (h : Begins lexeme node) :
    node.isToken = false := by
  obtain ⟨first, rest, hchildren, -⟩ := h
  exact isToken_of_children (by simp [hchildren])

/-- What begins with a lexeme has the ink of the lexeme in front. -/
theorem Begins.exists_ink {node : Node} {lexeme : Text} (h : Begins lexeme node)
    (hlexeme : lexeme.ink = lexeme ∧ lexeme ≠ Lexeme.endOfFile) :
    ∃ rest, node.text.ink = lexeme ++ rest := by
  obtain ⟨first, rest, hchildren, hfirst⟩ := h
  refine ⟨inkOf (leavesAll rest), ?_⟩
  rw [ink_text, leaves_of_children_ne_nil (by simp [hchildren]), hchildren, leavesAll, inkOf_append,
    ← ink_text, hfirst.ink hlexeme]

/-- A keyword of declarations has the ink of its lexeme. -/
theorem ink_of_keyword {node : Node} {lexeme : Text}
    (h : lexeme ∈ Keyword.modifiers ++ Keyword.signings) (hwritten : IsWritten lexeme node) :
    ink node.text = lexeme ∧ ink lexeme = lexeme := by
  have hall : ∀ s ∈ Keyword.modifiers ++ Keyword.signings, ink s = s ∧ s ≠ Lexeme.endOfFile := by
    decide +kernel
  exact ⟨hwritten.ink (hall lexeme h), (hall lexeme h).1⟩

/-- A modifier is written with its ink. -/
theorem IsModifier.ink_eq {node : Node} (h : IsModifier node) :
    ink (modifierText node) = ink node.text := by
  cases h with
  | word hmem hwritten =>
      obtain ⟨hink, hlexeme⟩ := ink_of_keyword (List.mem_append_left _ hmem) hwritten
      rw [modifierText, if_pos hwritten.lexeme_eq.1, hwritten.lexeme_eq.2, hink, hlexeme]
  | phrase hphrase _ => rw [modifierText, not_isToken_of_isModifierPhrase hphrase]; rfl

variable (columns : Columns)

/-- A modifier is read as one. -/
theorem splitQualifiers_modifier {node : Node} (h : IsModifier node) (seen : Qualifiers)
    (rest : List Node) :
    splitQualifiers columns seen (node :: rest) =
      splitQualifiers columns { seen with modifiers := seen.modifiers ++ [modifierText node] }
        rest := by
  cases h with
  | @word lexeme hmem hwritten =>
      have hsigning : ∀ s ∈ Keyword.modifiers, Keyword.signings.contains s = false := by
        decide +kernel
      obtain ⟨htoken, hlexeme⟩ := hwritten.lexeme_eq
      rw [splitQualifiers, modifierText, htoken, hlexeme, hsigning lexeme hmem]
      simp [hmem]
  | phrase hphrase hkind =>
      rw [splitQualifiers, modifierText, not_isToken_of_isModifierPhrase hphrase]
      simp [hphrase, hkind]

/-- Modifiers are read one after the other. -/
theorem splitQualifiers_modifiers {modifiers : List Node} (h : ∀ part ∈ modifiers, IsModifier part)
    (seen : Qualifiers) (rest : List Node) :
    splitQualifiers columns seen (modifiers ++ rest) =
      splitQualifiers columns
        { seen with modifiers := seen.modifiers ++ modifiers.map modifierText } rest := by
  induction modifiers generalizing seen with
  | nil => simp
  | cons node others ih =>
      obtain ⟨hnode, hothers⟩ := List.forall_mem_cons.1 h
      rw [List.cons_append, splitQualifiers_modifier columns hnode, ih hothers]
      simp

/-- A sign is read where none has been. -/
theorem splitQualifiers_signing {signing : Option Node}
    (h : ∀ part ∈ signing, ∃ lexeme ∈ Keyword.signings, IsWritten lexeme part) {seen : Qualifiers}
    (hseen : seen.signing = []) (rest : List Node) :
    splitQualifiers columns seen (signing.toList ++ rest) =
      splitQualifiers columns { seen with signing := (signing.map lexeme).getD [] } rest := by
  cases signing with
  | none => simp [← hseen]
  | some part =>
      obtain ⟨lexeme, hmem, hwritten⟩ := h part rfl
      obtain ⟨htoken, hlexeme⟩ := hwritten.lexeme_eq
      rw [Option.toList_some, List.singleton_append, splitQualifiers, htoken, hlexeme]
      simp [hmem, hlexeme]

/-- A range is read where none has been. -/
theorem splitQualifiers_range {range : Option Node}
    (h : ∀ part ∈ range, part.kind? = some .range ∧ Begins "[" part) {seen : Qualifiers}
    (hseen : seen.range = []) (rest : List Node) :
    splitQualifiers columns seen (range.toList ++ rest) =
      splitQualifiers columns
        { seen with range := (range.map fun part => Range.normalise columns part.text).getD [] }
        rest := by
  cases range with
  | none => simp [← hseen]
  | some part =>
      obtain ⟨hkind, hbegins⟩ := h part rfl
      rw [Option.toList_some, List.singleton_append, splitQualifiers, hbegins.isToken_eq]
      simp [hkind, hseen]

/-- Where no qualifier stands in front, the names begin. -/
theorem splitQualifiers_names {nodes : List Node} (h : ∀ part ∈ nodes.head?, ¬ IsQualifier part)
    (seen : Qualifiers) : splitQualifiers columns seen nodes = (seen, nodes) := by
  cases nodes with
  | nil => rfl
  | cons node rest =>
      have hnode := h node rfl
      simp only [IsQualifier, not_or, not_and] at hnode
      obtain ⟨htoken, hkind, hphrase⟩ := hnode
      have hsigning : ¬ (node.isToken && Keyword.signings.contains node.lexeme) = true := by
        simpa using fun hnode => (htoken hnode).1
      have hmodifier : ¬ (node.isToken && Keyword.modifiers.contains node.lexeme) = true := by
        simpa using fun hnode => (htoken hnode).2
      rw [splitQualifiers, if_neg hsigning, if_neg hmodifier, if_neg fun hboth => hkind hboth.1,
        if_neg hphrase]

/-! ## Names -/

/-- Opening lists keeps their leaves. -/
theorem leavesAll_declaredItems {nodes : List Node}
    (h : ∀ part ∈ nodes, part.is Kind.isIdentifierList → part.children ≠ []) :
    leavesAll (declaredItems nodes) = leavesAll nodes := by
  induction nodes with
  | nil => rfl
  | cons part rest ih =>
      obtain ⟨hpart, hrest⟩ := List.forall_mem_cons.1 h
      rw [declaredItems, List.flatMap_cons, leavesAll_append, leavesAll]
      refine congrArg₂ _ ?_ (ih hrest)
      split
      · next hkind => rw [leaves_of_children_ne_nil (hpart hkind)]
      · rw [leavesAll, leavesAll, List.append_nil]

/-- Opening a phrase keeps its leaves. -/
theorem leavesAll_opened {nodes : List Node} (h : opened nodes ≠ []) :
    leavesAll (opened nodes) = leavesAll nodes := by
  unfold opened at h ⊢
  split
  · next node =>
      split
      · rfl
      · next htoken =>
          dsimp only at h
          rw [if_neg htoken] at h
          rw [leavesAll, leavesAll, List.append_nil, leaves_of_children_ne_nil h]
  · rfl

/-- Taking names apart keeps their leaves. -/
theorem leavesAll_nameParts (nodes : List Node) :
    leavesAll (nameParts nodes) = leavesAll nodes := by
  unfold nameParts
  split
  · next hany =>
      obtain ⟨part, hpart, -⟩ := List.any_eq_true.1 hany
      exact leavesAll_opened (List.ne_nil_of_mem hpart)
  · rfl

/-- Names and dimensions are told apart by their kinds. -/
theorem filter_names {names dimensions : List Node}
    (hnames : ∀ part ∈ names, part.is Kind.isDimension = false)
    (hdimensions : ∀ part ∈ dimensions, part.is Kind.isDimension) :
    (names ++ dimensions).filter (fun part => !part.is Kind.isDimension) = names ∧
      (names ++ dimensions).filter (·.is Kind.isDimension) = dimensions := by
  constructor
  · rw [List.filter_append, List.filter_eq_self.2 (by simpa using hnames),
      List.filter_eq_nil_iff.2 (by simpa using hdimensions), List.append_nil]
  · rw [List.filter_append, List.filter_eq_nil_iff.2 (by simpa using hnames),
      List.filter_eq_self.2 hdimensions, List.nil_append]

/-- A name and its dimensions are found behind one another. -/
theorem arrayParts?_eq {nodes names dimensions : List Node}
    (hparts : nameParts nodes = names ++ dimensions) (hne : names ≠ [])
    (hnames : ∀ part ∈ names, part.is Kind.isDimension = false)
    (hdimensions : ∀ part ∈ dimensions, part.is Kind.isDimension) :
    arrayParts? columns nodes =
      if dimensions.isEmpty then none
      else some (joinedText names,
        dimensions.flatMap fun part => Range.normalise columns part.text) := by
  obtain ⟨hfront, hback⟩ := filter_names hnames hdimensions
  obtain ⟨name, hlast⟩ : ∃ name, names.getLast? = some name :=
    ⟨names.getLast hne, List.getLast?_eq_some_getLast hne⟩
  unfold arrayParts?
  simp only [hparts, hfront, hback, hlast]
  cases dimensions with
  | nil => rfl
  | cons dimension rest =>
      have hname := List.mem_of_getLast? hlast
      have hdimension : dimension ∉ names := fun hmem =>
        Bool.false_ne_true ((hnames dimension hmem).symm.trans
          (hdimensions dimension List.mem_cons_self))
      have horder : (names ++ dimension :: rest).idxOf name <
          (names ++ dimension :: rest).idxOf dimension := by
        rw [List.idxOf_append, List.idxOf_append, if_pos hname, if_neg hdimension]
        exact Nat.lt_of_lt_of_le (List.idxOf_lt_length_of_mem hname) (Nat.le_add_left _ _)
      simp [horder]

/-- A single name is written with its dimensions apart. -/
theorem ink_arrayParts? {nodes names dimensions : List Node}
    (hparts : nameParts nodes = names ++ dimensions) (hne : names ≠ [])
    (hnames : ∀ part ∈ names, part.is Kind.isDimension = false)
    (hdimensions : ∀ part ∈ dimensions, part.is Kind.isDimension) :
    let fields := (arrayParts? columns nodes).getD (joinedText nodes, [])
    ink fields.1 = inkOf (leavesAll names) ∧ ink fields.2 = inkOf (leavesAll dimensions) := by
  rw [arrayParts?_eq columns hparts hne hnames hdimensions]
  cases dimensions with
  | nil =>
      refine ⟨?_, rfl⟩
      show ink (joinedText nodes) = _
      rw [ink_joinedText, ← leavesAll_nameParts, hparts, List.append_nil]
  | cons dimension rest =>
      refine ⟨ink_joinedText names, ?_⟩
      have hink : ∀ parts : List Node,
          ink (parts.flatMap fun part => Range.normalise columns part.text) =
            inkOf (leavesAll parts) := by
        intro parts
        induction parts with
        | nil => rfl
        | cons part others ih =>
            rw [List.flatMap_cons, ink_append, Range.ink_normalise, ih, ink_text, leavesAll,
              inkOf_append]
      exact hink _

/-- The items of a declaration do not depend on a comma at its end. -/
theorem Listed.runs_eq {p : List Node → Prop} {named : List Node} {entries : List Group}
    (h : Listed p (declaredItems named) entries) {comma : Option Node}
    (hcomma : ∀ part ∈ comma, IsWritten "," part) :
    (groups "," (declaredItems (named ++ comma.toList))).map Group.items =
      entries.map Group.items := by
  cases comma with
  | none => rw [Option.toList_none, List.append_nil, h.groups_eq]
  | some part =>
      have hwritten := hcomma part rfl
      rw [Option.toList_some, declaredItems, List.flatMap_append]
      show (groups "," (declaredItems named ++ [part].flatMap _)).map Group.items = _
      rw [List.flatMap_singleton]
      split
      · rw [hwritten.children_eq, List.append_nil, h.groups_eq]
      · exact h.groups_concat hwritten.1

/-- The names of a declaration, and for a signal the dimensions of a single one. -/
theorem ink_nameFields {parts : Declared}
    (h : Listed IsName (declaredItems parts.named) parts.entries)
    (hcomma : ∀ part ∈ parts.comma, IsWritten "," part) (isPort : Bool) :
    let fields := nameFields columns (parts.named ++ parts.comma.toList)
    ink fields.1 ++ (if isPort then [] else ink fields.2) = inkOf (parts.names isPort) := by
  have hjoin := h.ink_intercalate
  have hruns := h.runs_eq hcomma
  unfold nameFields Declared.names
  dsimp only
  rw [hruns]
  -- Dimensions are split off a single name only; several names are written with theirs.
  rcases hentries : parts.entries with _ | ⟨entry, _ | ⟨next, others⟩⟩
  · exact absurd hentries h.ne_nil
  · rw [hentries] at h
    obtain ⟨rfl, hitem⟩ := h.single
    obtain ⟨names, dimensions, hparts, hne, hnames, hdimensions⟩ := hitem.item.parts
    have hkinds : ∀ part ∈ dimensions, part.is Kind.isDimension :=
      fun part hmem => (hdimensions part hmem).1
    obtain ⟨hfront, -⟩ := filter_names hnames hkinds
    obtain ⟨hname, hdimension⟩ := ink_arrayParts? columns hparts hne hnames hkinds
    simp only [List.map_cons, List.map_nil, List.intercalate_singleton, hname, hdimension, hparts]
    cases isPort with
    | true => simp [hfront]
    | false =>
        have hall : (names ++ dimensions).filter
            (fun part => !(false && part.is Kind.isDimension)) = names ++ dimensions :=
          List.filter_eq_self.2 (by simp)
        rw [hall, leavesAll_append, inkOf_append]
        rfl
  · rw [hentries] at hjoin
    simp only [List.map_cons] at hjoin ⊢
    rw [hjoin]
    cases isPort <;> simp

/-! ## The layout -/

/-- A text whose first part has been moved and two parts have been lost. -/
theorem moved_eq_iff {moved passed names lost comma back : Text}
    (h : ∀ c ∈ moved.head?, c ∉ passed.head?) :
    moved ++ (passed ++ (names ++ back)) =
        passed ++ (moved ++ (names ++ (lost ++ (comma ++ back)))) ↔
      (moved = [] ∨ passed = []) ∧ comma = [] ∧ lost = [] := by
  constructor
  · intro heq
    have hlength := congrArg List.length heq
    simp only [List.length_append] at hlength
    refine ⟨?_, List.length_eq_zero_iff.1 (by omega), List.length_eq_zero_iff.1 (by omega)⟩
    rcases moved with _ | ⟨c, moved⟩
    · exact .inl rfl
    · rcases passed with _ | ⟨d, passed⟩
      · exact .inr rfl
      · obtain ⟨rfl, -⟩ := List.cons_eq_cons.1 heq
        exact absurd rfl (h c rfl)
  · rintro ⟨rfl | rfl, rfl, rfl⟩ <;> rfl

/-- The line of a port has the ink of its fields but for the dimensions. -/
theorem ink_port (fields : Declaration) (start shift : Int) :
    ink (Layout.port columns fields start shift) =
      ink fields.keyword ++ ink fields.modifiers ++ ink fields.signing ++ ink fields.range ++
        ink fields.names ++ ink fields.terminator := by
  simp only [Layout.port, Line.ink_placeTerminator, Line.ink_place, Line.ink_appendWord, ink_nil,
    List.nil_append]

/-- The line of a signal has the ink of its fields. -/
theorem ink_signal (fields : Declaration) (start shift : Int) :
    ink (Layout.signal columns fields start shift) =
      ink fields.keyword ++ ink fields.modifiers ++ ink fields.signing ++ ink fields.range ++
        ink fields.names ++ ink fields.dimensions ++ ink fields.terminator := by
  unfold Layout.signal
  split
  · next hempty =>
      rw [List.isEmpty_iff.1 hempty, ink_nil, List.append_nil]
      simp only [Layout.scalar, Line.ink_placeTerminator, Line.ink_place, Line.ink_appendWord,
        ink_nil, List.nil_append]
  · simp only [Layout.array, Line.ink_placeTerminator, Line.ink_place, Line.ink_appendWord, ink_nil,
      List.nil_append]

/-- Modifiers have the ink of their leaves. -/
theorem ink_modifierTexts {modifiers : List Node} (h : ∀ part ∈ modifiers, IsModifier part) :
    ink (List.intercalate " " (modifiers.map modifierText)) = inkOf (leavesAll modifiers) := by
  rw [ink_intercalate _ ink_space]
  induction modifiers with
  | nil => rfl
  | cons node rest ih =>
      obtain ⟨hnode, hrest⟩ := List.forall_mem_cons.1 h
      rw [List.map_cons, List.flatMap_cons, ih hrest, hnode.ink_eq, ink_text, leavesAll,
        inkOf_append]

/-- A terminator that is written has its ink. -/
theorem ink_terminatorText {terminator : Option Node}
    (h : ∀ part ∈ terminator, IsWritten ";" part ∨ IsWritten "," part) :
    ink (terminatorText terminator) = inkOf terminator.toList := by
  cases terminator with
  | none => rfl
  | some part =>
      have hink : ∀ lexeme : Text, lexeme.ink = lexeme ∧ lexeme ≠ Lexeme.endOfFile →
          IsWritten lexeme part → ink part.lexeme = ink part.text := by
        intro lexeme hlexeme hwritten
        rw [hwritten.ink hlexeme, hwritten.lexeme_eq.2, hlexeme.1]
      rw [Option.toList_some, inkOf_cons, inkOf_nil, List.append_nil]
      rcases h part rfl with hwritten | hwritten
      · exact hink _ (by decide) hwritten
      · exact hink _ (by decide) hwritten

namespace Declares

variable {node : Node} {terminator : Option Node} {parts : Declared}

/-- A delay is read as a modifier. -/
theorem isModifier_delay (h : Declares node terminator parts) :
    ∀ part ∈ parts.delay.toList, IsModifier part := by
  intro part hmem
  obtain ⟨hphrase, hkind, -⟩ := h.delay part (by simpa using hmem)
  exact .phrase hphrase hkind

/-- A declaration names something. -/
theorem named_ne_nil (h : Declares node terminator parts) : parts.named ≠ [] := by
  intro hempty
  have hnodes := h.named.nodes_ne_nil
  rw [hempty] at hnodes
  exact hnodes rfl

/-- The semicolon of a declaration is split off, or the given one is used. -/
theorem splitTerminator_eq (h : Declares node terminator parts) :
    splitTerminator node.children terminator =
      (parts.keyword :: (parts.modifiers ++ (parts.signing.toList ++ (parts.range.toList ++
        (parts.delay.toList ++ (parts.named ++ parts.comma.toList))))),
        parts.semicolon <|> terminator) := by
  have hlast : ∀ last ∈ (parts.keyword :: (parts.modifiers ++ (parts.signing.toList ++
      (parts.range.toList ++ (parts.delay.toList ++
        (parts.named ++ parts.comma.toList)))))).getLast?, last.isLexeme ";" = false := by
    obtain ⟨last, hnamed⟩ : ∃ last, parts.named.getLast? = some last :=
      ⟨_, List.getLast?_eq_some_getLast h.named_ne_nil⟩
    cases hcomma : parts.comma with
    | none =>
        simp only [List.getLast?_cons, List.getLast?_append, hnamed, Option.toList_none,
          List.getLast?_nil, Option.none_or, Option.some_or, Option.getD_some]
        rintro _ ⟨⟩
        exact h.last last hnamed
    | some comma =>
        simp only [List.getLast?_cons, List.getLast?_append, Option.toList_some,
          List.getLast?_nil, Option.some_or, Option.getD_some]
        rintro _ ⟨⟩
        exact isLexeme_ne (h.comma comma hcomma).1 (by decide)
  rw [h.children, Declared.children]
  have hsplit := @splitTerminator_append _ _ terminator hlast
    fun token hmem => (h.semicolon token hmem).1
  simpa using hsplit

/-- The qualifiers of a declaration: a delay is a modifier wherever it stands. -/
theorem splitQualifiers_eq (h : Declares node terminator parts) :
    splitQualifiers columns {} (parts.modifiers ++ (parts.signing.toList ++ (parts.range.toList ++
        (parts.delay.toList ++ (parts.named ++ parts.comma.toList))))) =
      ({ modifiers := (parts.modifiers ++ parts.delay.toList).map modifierText
         signing := (parts.signing.map lexeme).getD []
         range := (parts.range.map fun part => Range.normalise columns part.text).getD [] },
        parts.named ++ parts.comma.toList) := by
  have hfront : ∀ part ∈ (parts.named ++ parts.comma.toList).head?, ¬ IsQualifier part := by
    obtain ⟨first, others, hnamed⟩ := List.exists_cons_of_ne_nil h.named_ne_nil
    have hfirst := h.front
    rw [hnamed] at hfirst ⊢
    exact hfirst
  rw [splitQualifiers_modifiers columns h.modifiers, splitQualifiers_signing columns h.signing rfl,
    splitQualifiers_range columns h.range rfl, splitQualifiers_modifiers columns h.isModifier_delay,
    splitQualifiers_names columns hfront]
  simp

/-- The fields of a declaration have the ink of its parts in the order of the layout. -/
theorem ink_declarationFields (h : Declares node terminator parts) (isPort : Bool) :
    (declarationFields columns node terminator).2 = (parts.semicolon <|> terminator) ∧
      let fields := (declarationFields columns node terminator).1
      ink fields.keyword ++ ink fields.modifiers ++ ink fields.signing ++ ink fields.range ++
        (ink fields.names ++ (if isPort then [] else ink fields.dimensions)) ++
          ink fields.terminator = inkOf (parts.written isPort terminator) := by
  have hmodifiers : ∀ part ∈ parts.modifiers ++ parts.delay.toList, IsModifier part :=
    List.forall_mem_append.2 ⟨h.modifiers, h.isModifier_delay⟩
  have hsigning : ink ((parts.signing.map lexeme).getD []) = inkOf parts.signing.toList := by
    cases hsome : parts.signing with
    | none => rfl
    | some part =>
        obtain ⟨lexeme, hmem, hwritten⟩ := h.signing part hsome
        obtain ⟨hink, hlexeme⟩ := ink_of_keyword (List.mem_append_right _ hmem) hwritten
        simp [hwritten.lexeme_eq.2, hink, hlexeme]
  have hrange : ink ((parts.range.map fun part => Range.normalise columns part.text).getD []) =
      inkOf (leavesAll parts.range.toList) := by
    cases parts.range with
    | none => rfl
    | some part => simp [leavesAll, Range.ink_normalise, ink_text]
  have hterminator : ink (terminatorText (parts.semicolon <|> terminator)) =
      inkOf (parts.semicolon <|> terminator).toList := by
    refine ink_terminatorText ?_
    cases hsome : parts.semicolon with
    | none => exact h.ending
    | some part =>
        rintro _ ⟨⟩
        exact .inl (h.semicolon part hsome)
  -- The fields are those of the parts one for one; only the modifiers and the names are more than a
  -- single node.
  unfold declarationFields
  rw [h.splitTerminator_eq]
  simp only [List.drop_one, List.tail_cons, h.splitQualifiers_eq columns, List.head?_cons,
    Option.map_some, Option.getD_some, true_and, ink_modifierTexts hmodifiers, hsigning, hrange,
    hterminator, ink_nameFields columns h.named h.comma isPort, ink_text, Declared.written,
    inkOf_append]

/-- Without a loss the names have the leaves of the nodes that declare them. -/
theorem names_false (h : Declares node terminator parts) :
    parts.names false = leavesAll parts.named := by
  have hnamed := h.named
  rw [← leavesAll_declaredItems h.lists, Declared.names]
  split
  · next entry hentries =>
      rw [hentries] at hnamed
      obtain ⟨rfl, -⟩ := hnamed.single
      rw [List.filter_eq_self.2 (by simp), leavesAll_nameParts]
  · rw [hnamed.leavesAll_eq]

/-- The only name of a declaration and its dimensions. -/
theorem exists_single (h : Declares node terminator parts) {entry : Group}
    (hentries : parts.entries = [entry]) :
    ∃ names, nameParts entry.items = names ++ parts.dimensions ∧
      (nameParts entry.items).filter (fun part => !part.is Kind.isDimension) = names ∧
      ∀ part ∈ parts.dimensions, Begins "[" part := by
  have hnamed := h.named
  rw [hentries] at hnamed
  obtain ⟨rfl, hitem⟩ := hnamed.single
  obtain ⟨names, dimensions, hparts, -, hnames, hdimensions⟩ := hitem.item.parts
  obtain ⟨hfront, hback⟩ := filter_names hnames fun part hmem => (hdimensions part hmem).1
  have hsame : parts.dimensions = dimensions := by
    rw [Declared.dimensions, hentries]
    dsimp only
    rw [hparts, hback]
  rw [hsame]
  exact ⟨names, hparts, hparts ▸ hfront, fun part hmem => (hdimensions part hmem).2⟩

/-- A port loses the dimensions of a single name. -/
theorem inkOf_names (h : Declares node terminator parts) (isPort : Bool) :
    inkOf (parts.names false) =
      inkOf (parts.names isPort) ++ if isPort then inkOf (leavesAll parts.dimensions) else [] := by
  cases isPort with
  | false => simp
  | true =>
      unfold Declared.names
      split
      · next entry hentries =>
          obtain ⟨names, hparts, hfront, -⟩ := h.exists_single hentries
          simp only [Bool.true_and, Bool.false_and, hfront, if_true]
          rw [List.filter_eq_self.2 (by simp), hparts, leavesAll_append, inkOf_append]
      · next hmany =>
          have hnone : parts.dimensions = [] := by
            unfold Declared.dimensions
            split
            · next entry hentries => exact absurd hentries (hmany entry)
            · rfl
          simp [hnone, leavesAll]

/-- The dimensions that a port loses are no blanks. -/
theorem dimensions_eq_nil_iff (h : Declares node terminator parts) :
    inkOf (leavesAll parts.dimensions) = [] ↔ parts.dimensions = [] := by
  refine ⟨fun hink => ?_, fun hnone => by rw [hnone]; rfl⟩
  have hbegins : ∀ part ∈ parts.dimensions, Begins "[" part := by
    intro part hmem
    unfold Declared.dimensions at hmem
    split at hmem
    · next entry hentries =>
        obtain ⟨_, -, -, hbegins⟩ := h.exists_single hentries
        refine hbegins part ?_
        unfold Declared.dimensions
        rwa [hentries]
    · cases hmem
  cases hdimensions : parts.dimensions with
  | nil => rfl
  | cons part rest =>
      obtain ⟨back, hpart⟩ := (hbegins part (by simp [hdimensions])).exists_ink (by decide)
      rw [hdimensions, leavesAll, inkOf_append, ← ink_text, hpart] at hink
      cases hink

/-- The leaves of a declaration in the order of the grammar. -/
theorem inkOf_leaves (h : Declares node terminator parts) :
    inkOf node.leaves = inkOf parts.keyword.leaves ++ inkOf (leavesAll parts.modifiers) ++
      inkOf parts.signing.toList ++ inkOf (leavesAll parts.range.toList) ++
        inkOf (leavesAll parts.delay.toList) ++ inkOf (parts.names false) ++
          inkOf parts.comma.toList ++ inkOf parts.semicolon.toList := by
  have htokens : ∀ token : Option Node, (∀ part ∈ token, ∃ lexeme, IsWritten lexeme part) →
      leavesAll token.toList = token.toList := by
    rintro (_ | part) hwritten
    · rfl
    · obtain ⟨lexeme, hpart⟩ := hwritten part rfl
      rw [Option.toList_some, leavesAll, leavesAll, List.append_nil, hpart.leaves_eq]
  have hleaves : node.leaves = leavesAll node.children :=
    leaves_of_children_ne_nil (by simp [h.children, Declared.children])
  have hsigning := htokens parts.signing fun part hmem => by
    obtain ⟨lexeme, -, hwritten⟩ := h.signing part hmem
    exact ⟨lexeme, hwritten⟩
  have hcomma := htokens parts.comma fun part hmem => ⟨_, h.comma part hmem⟩
  have hsemicolon := htokens parts.semicolon fun part hmem => ⟨_, h.semicolon part hmem⟩
  rw [hleaves, h.children, Declared.children, h.names_false]
  simp only [leavesAll, leavesAll_append, inkOf_append, hsigning, hcomma, hsemicolon,
    List.append_assoc]

/-- A delay begins with its number sign. -/
theorem inkOf_delay (h : Declares node terminator parts) :
    parts.delay = none ∨ parts.delay ≠ none ∧
      ∃ rest, inkOf (leavesAll parts.delay.toList) = .char '#' :: rest := by
  cases hsome : parts.delay with
  | none => exact .inl rfl
  | some part =>
      obtain ⟨rest, hrest⟩ := (h.delay part hsome).2.2.exists_ink (by decide)
      exact .inr ⟨by simp, rest, by simp [leavesAll, ← ink_text, hrest]⟩

/-- A sign or a range begins with a letter or a bracket. -/
theorem inkOf_signing_range (h : Declares node terminator parts) :
    parts.signing = none ∧ parts.range = none ∨ ¬ (parts.signing = none ∧ parts.range = none) ∧
      ∃ (c : CodePoint) (rest : Text), c ≠ '#' ∧
        inkOf parts.signing.toList ++ inkOf (leavesAll parts.range.toList) = c :: rest := by
  cases hsigning : parts.signing with
  | some part =>
      obtain ⟨lexeme, hmem, hwritten⟩ := h.signing part hsigning
      have hall : ∀ s ∈ Keyword.signings, s.head?.any (· ≠ .char '#') := by decide +kernel
      obtain ⟨c, hc, hne⟩ := (Option.any_eq_true _ _).1 (hall lexeme hmem)
      obtain ⟨rest, rfl⟩ := List.head?_eq_some_iff.1 hc
      have hink := (ink_of_keyword (List.mem_append_right _ hmem) hwritten).1
      exact .inr ⟨by simp, c, rest ++ inkOf (leavesAll parts.range.toList), by simpa using hne,
        by simp [hink]⟩
  | none =>
      cases hrange : parts.range with
      | none => exact .inl ⟨rfl, rfl⟩
      | some part =>
          obtain ⟨rest, hrest⟩ := (h.range part hrange).2.exists_ink (by decide)
          exact .inr ⟨by simp, '[', rest, by decide, by simp [leavesAll, ← ink_text, hrest]⟩

/-- A declaration has no ink of a comma if and only if it has no comma. -/
theorem comma_eq_none_iff (h : Declares node terminator parts) :
    inkOf parts.comma.toList = [] ↔ parts.comma = none := by
  cases hcomma : parts.comma with
  | none => simp
  | some part => simp [(h.comma part hcomma).ink (by decide)]

/-- The declaration is written as it stands if and only if its parts are in the order of the
layout. -/
theorem inkOf_written_eq_iff (h : Declares node terminator parts) (isPort : Bool) :
    inkOf (parts.written isPort terminator) = inkOf (node.leaves ++ terminator.toList) ↔
      parts.InOrder isPort := by
  have hend : inkOf (parts.semicolon <|> terminator).toList =
      inkOf parts.semicolon.toList ++ inkOf terminator.toList := by
    rcases h.one with hnone | hnone
    · rw [hnone]; rfl
    · rw [hnone]; cases parts.semicolon <;> simp
  have hheads : ∀ c ∈ (inkOf (leavesAll parts.delay.toList)).head?,
      c ∉ (inkOf parts.signing.toList ++ inkOf (leavesAll parts.range.toList)).head? := by
    rcases h.inkOf_delay with hnone | ⟨-, _, hdelay⟩
    · simp [hnone, leavesAll]
    · rcases h.inkOf_signing_range with ⟨hsigning, hrange⟩ | ⟨-, c, rest, hne, hfront⟩
      · simp [hsigning, hrange, leavesAll]
      · simpa [hdelay, hfront] using hne
  -- Moving a part shows only if the part and what it passes both have ink; the heads tell them
  -- apart.
  have hmoved := @moved_eq_iff _ _ (inkOf (parts.names isPort))
    (if isPort then inkOf (leavesAll parts.dimensions) else []) (inkOf parts.comma.toList)
    (inkOf parts.semicolon.toList ++ inkOf terminator.toList) hheads
  have hdelay : inkOf (leavesAll parts.delay.toList) = [] ↔ parts.delay = none := by
    rcases h.inkOf_delay with hnone | ⟨hsome, rest, hdelay⟩
    · simp [hnone, leavesAll]
    · simp [hsome, hdelay]
  have hfront : inkOf parts.signing.toList ++ inkOf (leavesAll parts.range.toList) = [] ↔
      parts.signing = none ∧ parts.range = none := by
    rcases h.inkOf_signing_range with ⟨hsigning, hrange⟩ | ⟨hsome, c, rest, -, hfront⟩
    · simp [hsigning, hrange, leavesAll]
    · rw [hfront]
      exact ⟨nofun, fun hnone => absurd hnone hsome⟩
  have hlost : (if isPort then inkOf (leavesAll parts.dimensions) else []) = [] ↔
      (isPort → parts.dimensions = []) := by
    cases isPort <;> simp [h.dimensions_eq_nil_iff]
  rw [hdelay, hfront, h.comma_eq_none_iff, hlost] at hmoved
  have hsource : inkOf (parts.written isPort terminator) =
      inkOf (node.leaves ++ terminator.toList) ↔
        (parts.delay = none ∨ parts.signing = none ∧ parts.range = none) ∧ parts.comma = none ∧
          (isPort → parts.dimensions = []) := by
    rw [← hmoved, inkOf_append, h.inkOf_leaves, h.inkOf_names isPort, Declared.written]
    simp only [leavesAll_append, inkOf_append, hend, List.append_assoc, List.append_cancel_left_eq]
  rw [hsource]
  exact ⟨fun ⟨hplace, hcomma, hkept⟩ => ⟨hplace, hcomma, hkept⟩,
    fun horder => ⟨horder.delay, horder.comma, horder.dimensions⟩⟩

/-- A declaration of ports is written as one. -/
theorem phrase_port {kind : Kind} (hkind : node.kind? = some kind)
    (hclass : kind.isPortDeclaration = true) (format : Formatter) (level : Int) :
    phrase columns format node level terminator =
      portDeclaration columns node level terminator := by
  rw [phrase, hkind]
  cases kind <;> first | exact absurd hclass Bool.false_ne_true | rfl

/-- A declaration of signals is written as one. -/
theorem phrase_signal {kind : Kind} (hkind : node.kind? = some kind)
    (hclass : kind.isSignalDeclaration = true) (format : Formatter) (level : Int) :
    phrase columns format node level terminator =
      signalDeclaration columns node level terminator := by
  rw [phrase, hkind]
  cases kind <;> first | exact absurd hclass Bool.false_ne_true | rfl

/-- A declaration is written as one line with the ink of its parts. -/
theorem exists_phrase (h : Declares node terminator parts) (hplain : node.Plain)
    (hterminator : ∀ token ∈ terminator, token.Plain) (format : Formatter) (level : Int) :
    ∃ kind, node.kind? = some kind ∧ kind.writesTerminator ∧
      ∃ body, phrase columns format node level terminator = pure body ∧
        ink body = inkOf (parts.written (node.is Kind.isPortDeclaration) terminator) := by
  obtain ⟨hlast, hink⟩ := h.ink_declarationFields columns (node.is Kind.isPortDeclaration)
  have hend : AllPlain (node :: (declarationFields columns node terminator).2.toList) := by
    refine allWithin_cons.2 ⟨hplain, allWithin_toList.2 ?_⟩
    rw [hlast]
    intro token hmem
    cases hsome : parts.semicolon with
    | none =>
        rw [hsome] at hmem
        exact hterminator token hmem
    | some semicolon =>
        rw [hsome] at hmem
        obtain rfl := Option.some.inj hmem
        refine Within.children hplain semicolon ?_
        simp [h.children, Declared.children, hsome]
  -- Ports and signals share their fields but not the columns they are placed at.
  rcases h.kind with hport | hsignal
  · obtain ⟨kind, hkind, hclass⟩ := (Option.any_eq_true _ _).1 hport
    refine ⟨kind, hkind, by simp [Kind.writesTerminator, hclass], Layout.port columns
      (declarationFields columns node terminator).1 (level * indentWidth) (columnShift level),
      ?_, ?_⟩
    · rw [phrase_port columns hkind hclass, portDeclaration]
      simp only [endOfLine_plain hend, pure_bind, List.append_nil]
    · rw [hport] at hink ⊢
      rw [ink_port, ← hink]
      simp
  · obtain ⟨kind, hkind, hclass⟩ := (Option.any_eq_true _ _).1 hsignal
    have hport : node.is Kind.isPortDeclaration = false := by
      rw [is, hkind, Option.any_some]
      cases kind <;> first | exact absurd hclass Bool.false_ne_true | rfl
    refine ⟨kind, hkind, by simp [Kind.writesTerminator, hclass], Layout.signal columns
      (declarationFields columns node terminator).1 (level * indentWidth) (columnShift level),
      ?_, ?_⟩
    · rw [phrase_signal columns hkind hclass, signalDeclaration]
      simp only [endOfLine_plain hend, pure_bind, List.append_nil]
    · rw [hport] at hink ⊢
      rw [ink_signal, ← hink]
      simp

end Declares

end Node

/-- A declaration without comments is written with the tokens of its parts in the order of the
layout, and this is the declaration as it stands if and only if its parts are in that order. -/
theorem Node.format_declaration (columns : Columns) {node : Node} {parts : Declared}
    {given : Option Node}
    (h : Declares node.unwrap.inner (given <|> node.unwrap.terminator) parts)
    (hnode : node.comments = []) (hgiven : ∀ token ∈ given, token.comments = []) (root : Bool)
    (level : Int) :
    let isPort := node.unwrap.inner.is Kind.isPortDeclaration
    let terminator := given <|> node.unwrap.terminator
    ∃ text, format columns root node level given = pure text ∧
      text.ink = inkOf (parts.written isPort terminator) ∧
      (text.ink = inkOf (node.unwrap.inner.leaves ++ terminator.toList) ↔
        parts.InOrder isPort) := by
  intro isPort terminator
  have hplain : node.Plain := plain_iff.2 hnode
  have hgiven : ∀ token ∈ given, token.Plain := fun token hmem => plain_iff.2 (hgiven token hmem)
  obtain ⟨kind, hkind, hwrites, body, hbody, hink⟩ :=
    h.exists_phrase columns (within_unwrap hplain).1 (within_terminator hplain hgiven)
      (formatAt columns node.height) level
  have hformat := format_of_phrase columns hplain hkind hwrites hgiven root hbody
  have htext : ink (placed root node level body) = inkOf (parts.written isPort terminator) := by
    rw [ink_placed, hink]
  refine ⟨placed root node level body, hformat, htext, ?_⟩
  rw [htext, h.inkOf_written_eq_iff isPort]

namespace Node

/-- A vector of nets with a delay behind its range. -/
def delayedWire : Declared :=
  { keyword := { name := "WIRE", value := some ("wire" : Text) }
    modifiers := []
    signing := none
    range := some
      { name := "range_"
        children := [
          { name := "LBRACK", value := some ("[" : Text) },
          { name := "NUMBER", value := some ("7" : Text) },
          { name := "COLON", value := some (":" : Text) },
          { name := "NUMBER", value := some ("0" : Text) },
          { name := "RBRACK", value := some ("]" : Text) }] }
    delay := some
      { name := "delay3"
        children := [
          { name := "HASH", value := some ("#" : Text) },
          { name := "NUMBER", value := some ("3" : Text) }] }
    named := [
      { name := "list_of_net_identifiers"
        children := [{ name := "IDENTIFIER", value := some ("a" : Text) }] }]
    entries := [{ items := [{ name := "IDENTIFIER", value := some ("a" : Text) }] }]
    comma := none
    semicolon := some { name := "SEMI", value := some (";" : Text) } }

theorem format_delayedWire :
    let node : Node := { name := "net_declaration", children := delayedWire.children }
    ∃ text, format Columns.standard false node 1 none = pure text ∧
      text.ink = "wire#3[7:0]a;" ∧ inkOf node.leaves = "wire[7:0]#3a;" ∧
      ¬ delayedWire.InOrder false := by
  intro node
  have hfixed : ∀ {name : Text} {lexeme : Text}, Lexeme.byName? name = some lexeme →
      IsWritten lexeme { name, value := some lexeme } :=
    fun hname => ⟨by simp [isLexeme, isToken, Node.lexeme], by simp [hname]⟩
  have hname : IsItem IsName [{ name := "IDENTIFIER", value := some ("a" : Text) }] :=
    ⟨by simp, by decide, ⟨[{ name := "IDENTIFIER", value := some ("a" : Text) }], [], rfl, by simp,
      by decide, by simp⟩⟩
  have hdeclares : Declares node none delayedWire :=
    { kind := .inr rfl
      children := rfl
      modifiers := by simp [delayedWire]
      signing := by simp [delayedWire]
      range := by rintro _ ⟨⟩; exact ⟨rfl, _, _, rfl, hfixed rfl⟩
      delay := by rintro _ ⟨⟩; exact ⟨by decide, by decide, _, _, rfl, hfixed rfl⟩
      front := by rintro _ ⟨⟩; unfold IsQualifier; decide
      named := .last hname
      lists := by decide
      last := by decide
      comma := by simp [delayedWire]
      semicolon := by rintro _ ⟨⟩; exact hfixed rfl
      ending := by simp
      one := .inr rfl }
  obtain ⟨text, htext, hink, horder⟩ :=
    @format_declaration Columns.standard node _ none hdeclares rfl (by simp) false 1
  have hsource : inkOf node.leaves = "wire[7:0]#3a;" := rfl
  refine ⟨text, htext, hink, hsource, fun hplaced => ?_⟩
  have hsame := horder.2 hplaced
  rw [hink] at hsame
  exact absurd hsame (by decide)

end Node
end VerilogLayout

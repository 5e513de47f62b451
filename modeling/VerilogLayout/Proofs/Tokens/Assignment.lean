import VerilogLayout.Proofs.Column.Row
import VerilogLayout.Proofs.Comments.Declaration
import VerilogLayout.Proofs.Tokens.Declaration

/-!
# The tokens of parameters and continuous assignments

`Assigns node terminator` says that a node is a declaration of parameters or a continuous
assignment. Both have a list of assignments, which is cut at its commas and each assignment at its
equals sign; commas, equals signs and the terminator are written anew. A continuous assignment with
a strength or a delay is not cut but written as it stands. `format_assignments` says that either way
all tokens are written in order.
-/

namespace VerilogLayout

open Text Render

namespace Node

/-! ## The grammar -/

/-- The nodes are an assignment, bare or as one phrase, with these sides. -/
structure Sides (nodes target : List Node) (equals : Node) (value : List Node) : Prop where
  opened : opened nodes = target ++ equals :: value
  target : ∀ part ∈ target, part.isLexeme "=" = false
  equals : IsWritten "=" equals

/-- An assignment `target = value`. -/
def IsAssignment (nodes : List Node) : Prop :=
  ∃ target equals value, Sides nodes target equals value

/-- A parameter `name = value`, whose value is not blank. -/
def IsParameter (nodes : List Node) : Prop :=
  ∃ name equals value, Sides nodes name equals value ∧ inkOf (leavesAll value) ≠ []

/-- What may stand between the keyword of a declaration of parameters and their list. -/
def IsParameterModifier (node : Node) : Prop :=
  node.kind? ≠ some .listOfParamAssignments ∧ node.kind? ≠ some .paramAssignment

/-- The node is a declaration of parameters or a continuous assignment; its semicolon stands at its
end or is passed in as `terminator`, as is the comma behind a parameter of a header. -/
inductive Assigns : Node → Option Node → Prop where
  | parameters {node keyword modifiers list entries semicolon terminator} :
      node.is Kind.isParameterDeclaration →
      node.children = keyword :: (modifiers ++ list :: semicolon.toList) →
      (∀ part ∈ modifiers, IsParameterModifier part) →
      list.kind? = some .listOfParamAssignments → Listed IsParameter list.children entries →
      (∀ token ∈ semicolon, IsWritten ";" token) →
      (∀ token ∈ terminator, IsWritten ";" token ∨ IsWritten "," token) →
      semicolon = none ∨ terminator = none → Assigns node terminator
  | nets {node keyword qualifiers list entries semicolon terminator} :
      node.kind? = some .continuousAssign →
      node.children = keyword :: (qualifiers ++ list :: semicolon.toList) →
      IsWritten "assign" keyword → list.kind? = some .listOfNetAssignments →
      Listed IsAssignment list.children entries →
      (∀ token ∈ semicolon <|> terminator, IsWritten ";" token) →
      semicolon = none ∨ terminator = none → Assigns node terminator

/-! ## One assignment -/

namespace Sides

variable {nodes target value : List Node} {equals : Node} (h : Sides nodes target equals value)
include h

/-- An assignment is cut at its equals sign. -/
theorem sides?_eq : sides? (Node.opened nodes) = some (joinedText target, joinedText value) := by
  rw [sides?, h.opened, indexOf?_append h.target h.equals.1, Option.map_some, List.take_left]
  simp

/-- The ink of an assignment is that of its sides around the equals sign. -/
theorem inkOf_eq :
    inkOf (leavesAll nodes) = inkOf (leavesAll target) ++ "=" ++ inkOf (leavesAll value) := by
  have hne : Node.opened nodes ≠ [] := by simp [h.opened]
  rw [← leavesAll_opened hne, h.opened, leavesAll_append, leavesAll, inkOf_append, inkOf_append,
    h.equals.leaves_eq, inkOf_cons, inkOf_nil, h.equals.ink (by decide), List.append_nil,
    List.append_assoc]

end Sides

/-! ## Lists of assignments -/

/-- The target and the value of an assignment as they are written. -/
def assignmentText (sides : Text × Text) : Text :=
  sides.1 ++ " = " ++ sides.2

/-- The text of an assignment is its sides around the equals sign. -/
theorem ink_assignmentText (sides : Text × Text) :
    ink (assignmentText sides) = ink sides.1 ++ "=" ++ ink sides.2 := by
  have hequals : ink " = " = "=" := rfl
  rw [assignmentText, ink_append, ink_append, hequals]

/-- The assignments of a list are found, and have the ink of the list with commas between them. -/
theorem Listed.exists_sides {nodes : List Node} {entries : List Group}
    (h : Listed IsAssignment nodes entries) :
    ∃ pairs, (entries.mapM fun group => sides? (opened group.items)) = some pairs ∧ pairs ≠ [] ∧
      ink (List.intercalate ", " (pairs.map assignmentText)) = inkOf (leavesAll nodes) := by
  induction h with
  | last hitem =>
      obtain ⟨target, equals, value, hsides⟩ := hitem.item
      refine ⟨[(joinedText target, joinedText value)], ?_, by simp, ?_⟩
      · simp [hsides.sides?_eq]
      · simp [ink_assignmentText, ink_joinedText, hsides.inkOf_eq]
  | @cons nodes comma rest entries hitem hcomma _ ih =>
      obtain ⟨target, equals, value, hsides⟩ := hitem.item
      obtain ⟨pairs, hpairs, hne, hink⟩ := ih
      obtain ⟨next, others, rfl⟩ := List.exists_cons_of_ne_nil hne
      have hseparator : ink ", " = "," := rfl
      refine ⟨(joinedText target, joinedText value) :: next :: others, ?_, by simp, ?_⟩
      · simp [hsides.sides?_eq, hpairs]
      · rw [List.map_cons] at hink
        rw [List.map_cons, List.map_cons, List.intercalate_cons_cons, ink_append, ink_append, hink,
          hseparator,
          ink_assignmentText, ink_joinedText, ink_joinedText, ← hsides.inkOf_eq, leavesAll_append,
          leavesAll, hcomma.leaves_eq]
        simp [hcomma.ink (by decide), -String.reduceToList]

end Node

open Node

namespace Layout

variable (columns : Columns)

/-- The line of a parameter with a value has the ink of its fields. -/
theorem ink_parameter {fields : Parameter} (hvalue : fields.value ≠ []) (start shift : Int) :
    ink (parameter columns fields start shift) =
      ink fields.keyword ++ ink fields.modifiers ++ (ink fields.name ++ "=" ++ ink fields.value) ++
        ink fields.terminator := by
  have hequals : ink "=" = "=" := rfl
  unfold parameter
  dsimp only
  rw [if_neg fun hempty => hvalue (List.isEmpty_iff.1 hempty)]
  simp only [Line.ink_placeTerminator, Line.ink_place, Line.ink_appendWord, Line.ink_text_append,
    ink_append, ink_space, hequals, ink_nil, List.nil_append, List.append_assoc]

/-- A continuous assignment has commas between its assignments. -/
theorem ink_assign {pairs : List (Text × Text)} (hne : pairs ≠ []) (terminator : Text)
    (start shift : Int) :
    ink (assign columns pairs terminator start shift) =
      "assign" ++ ink (List.intercalate ", " (pairs.map assignmentText)) ++ ink terminator := by
  have hkeyword : ink "assign" = "assign" := rfl
  have hequals : ink "=" = "=" := rfl
  have hbehind : ∀ pair : Text × Text,
      ", " ++ pair.1 ++ " = " ++ pair.2 = ", " ++ assignmentText pair := by
    intro pair
    rw [assignmentText, List.append_assoc, List.append_assoc, List.append_assoc]
  obtain ⟨first, others, rfl⟩ := List.exists_cons_of_ne_nil hne
  rw [List.map_cons, intercalate_cons, List.flatMap_map, ink_append, ink_assignmentText]
  unfold assign
  dsimp only
  rw [foldl_pairs, funext hbehind]
  simp only [Line.ink_text_append, Line.ink_place, ink_append, ink_space, hkeyword, hequals,
    ink_nil, List.nil_append, List.append_assoc]

end Layout

namespace Render

variable (columns : Columns)

/-! ## Parameters -/

/-- A modifier of parameters as it is written. -/
def parameterModifierText (node : Node) : Text :=
  if node.kind? = some .range then Range.normalise columns node.text else node.text

/-- The modifiers of a parameter have the ink of their leaves. -/
theorem ink_parameterModifierTexts (modifiers : List Node) :
    ink (List.intercalate " " (modifiers.map (parameterModifierText columns))) =
      inkOf (leavesAll modifiers) := by
  have hone : ∀ node : Node, ink (parameterModifierText columns node) = inkOf node.leaves := by
    intro node
    unfold parameterModifierText
    split
    · rw [Range.ink_normalise, ink_text]
    · exact ink_text node
  rw [ink_intercalate _ ink_space]
  induction modifiers with
  | nil => rfl
  | cons node rest ih => rw [List.map_cons, List.flatMap_cons, ih, hone, leavesAll, inkOf_append]

/-- Children in front of the list of parameters are modifiers. -/
theorem foldl_parameterModifiers {modifiers : List Node}
    (h : ∀ part ∈ modifiers, IsParameterModifier part) (parts : ParameterParts) :
    modifiers.foldl (ParameterParts.add columns) parts =
      { parts with
        modifiers := parts.modifiers ++ modifiers.map (parameterModifierText columns)
        head := parts.head ++ modifiers } := by
  induction modifiers generalizing parts with
  | nil => simp
  | cons node rest ih =>
      obtain ⟨⟨hlist, hsingle⟩, hrest⟩ := List.forall_mem_cons.1 h
      have hadd : ParameterParts.add columns parts node =
          { parts with
            modifiers := parts.modifiers ++ [parameterModifierText columns node]
            head := parts.head ++ [node] } := by
        unfold ParameterParts.add parameterModifierText
        split
        · next hkind => exact absurd hkind hlist
        · next hkind => exact absurd hkind hsingle
        · next hkind => rw [if_pos hkind]
        · next hrange => rw [if_neg hrange]
      rw [List.foldl_cons, hadd, ih hrest]
      simp

/-- A parameter that follows another one, on a line of its own. -/
def parameterLine (level : Int) (nodes : List Node) (terminator : Text) : Text :=
  indentFor (level + 1) ++ Layout.parameter columns
    { keyword := [], name := (parameterParts nodes).1, value := (parameterParts nodes).2
      terminator } ((level + 1) * indentWidth) (columnShift level)

/-- The nodes whose comments stand behind a parameter are plain. -/
theorem allPlain_entry {terminator : Option Node} (hterminator : ∀ token ∈ terminator, token.Plain)
    {group : Group} (h : AllPlain (group.items ++ group.separator.toList)) (isLast : Bool) :
    AllPlain (group.items ++ group.separator.toList ++
      if isLast then terminator.toList else []) := by
  refine allWithin_append.2 ⟨h, ?_⟩
  split
  · exact allWithin_toList.2 hterminator
  · exact allWithin_nil

/-- A parameter is written with its name, its equals sign and its value. -/
theorem ink_parameterLayout {nodes : List Node} (h : IsParameter nodes)
    (keyword modifiers terminator : Text) (start shift : Int) :
    ink (Layout.parameter columns
        { keyword, modifiers, name := (parameterParts nodes).1
          value := (parameterParts nodes).2, terminator } start shift) =
      ink keyword ++ ink modifiers ++ inkOf (leavesAll nodes) ++ ink terminator := by
  obtain ⟨name, equals, value, hsides, hvalue⟩ := h
  have hparts : parameterParts nodes = (joinedText name, joinedText value) := by
    rw [parameterParts, hsides.sides?_eq, Option.getD_some]
  have hne : joinedText value ≠ [] := by
    intro hempty
    rw [← ink_joinedText, hempty] at hvalue
    exact hvalue rfl
  rw [hparts, Layout.ink_parameter columns hne, hsides.inkOf_eq, ink_joinedText, ink_joinedText]

/-- The line of a parameter has the ink of its nodes and its terminator. -/
theorem ink_parameterLine {nodes : List Node} (h : IsParameter nodes) (level : Int)
    (terminator : Text) :
    ink (parameterLine columns level nodes terminator) =
      inkOf (leavesAll nodes) ++ ink terminator := by
  rw [parameterLine, ink_append, ink_indentFor, ink_parameterLayout columns h]
  rfl

section

variable {terminator : Option Node}
  (hwritten : ∀ token ∈ terminator, IsWritten ";" token ∨ IsWritten "," token)
  (hterminator : ∀ token ∈ terminator, token.Plain) (level : Int)
include hwritten hterminator

/-- The lines below the first parameter are written, and have the tokens that are left of the list
and of the terminator if the first line has its own. -/
theorem exists_parameterLines {nodes : List Node} {entries : List Group}
    (h : Listed IsParameter nodes entries) (hplain : GroupsWithin (fun _ => False) entries) :
    ∃ first rest lines, entries = first :: rest ∧ IsParameter first.items ∧
      parameterLines columns level terminator rest = pure lines ∧
      ∀ line front, ink line = front ++ inkOf (leavesAll first.items) ++
          ink (if rest.isEmpty then terminatorText terminator else ",") →
        ink (List.intercalate "\n" (line :: lines)) =
          front ++ inkOf (leavesAll nodes) ++ inkOf terminator.toList := by
  -- The first entry goes with the keyword and is not among the lines, so the statement is about
  -- what stands above them.
  induction h with
  | @last nodes hitem =>
      refine ⟨{ items := nodes }, [], [], rfl, hitem.item, rfl, fun line front hline => ?_⟩
      rw [List.intercalate_singleton, hline, List.isEmpty_nil, if_pos rfl,
        ink_terminatorText hwritten]
  | @cons nodes comma rest entries hitem hcomma hrest ih =>
      obtain ⟨hfirst, hothers⟩ := groupsWithin_cons.1 hplain
      obtain ⟨next, others, lines, rfl, hparameter, hlines, hbelow⟩ := ih hothers
      have hnext := (groupsWithin_cons.1 hothers).1
      refine ⟨{ items := nodes, separator := some comma }, next :: others,
        parameterLine columns level next.items
          (if others.isEmpty then terminatorText terminator else ",") :: lines, rfl,
        hitem.item, ?_, fun above front habove => ?_⟩
      · rw [parameterLines]
        simp only [endOfLine_plain (allPlain_entry hterminator hnext _), hlines, pure_bind,
          List.append_nil]
        rfl
      · have hline := ink_parameterLine columns hparameter level
          (if others.isEmpty then terminatorText terminator else ",")
        have hcommas : ink "," = inkOf comma.leaves := by
          rw [hcomma.leaves_eq, inkOf_cons, hcomma.ink (by decide), inkOf_nil, List.append_nil]
          rfl
        have hfeed : ink "\n" = [] := rfl
        rw [List.intercalate_cons_cons, ink_append, ink_append, habove, hbelow _ [] hline, hfeed,
          List.isEmpty_cons, if_neg Bool.false_ne_true, hcommas, leavesAll_append, leavesAll,
          inkOf_append, inkOf_append]
        simp only [List.append_assoc, List.nil_append, List.append_nil]

/-- A declaration of parameters is written with its tokens in order. -/
theorem exists_parameterDeclaration {node keyword list : Node} {modifiers : List Node}
    {entries : List Group} {given : Option Node}
    (hnode : splitTerminator node.children given = (keyword :: (modifiers ++ [list]), terminator))
    (hplain : AllPlain (keyword :: (modifiers ++ [list])))
    (hmodifiers : ∀ part ∈ modifiers, IsParameterModifier part)
    (hlist : list.kind? = some .listOfParamAssignments)
    (h : Listed IsParameter list.children entries) :
    ∃ text, parameterDeclaration columns node level given = pure text ∧
      ink text =
        inkOf (leavesAll (keyword :: (modifiers ++ [list]))) ++ inkOf terminator.toList := by
  obtain ⟨hkeyword, hothers⟩ := allWithin_cons.1 hplain
  obtain ⟨hmodifiersPlain, hlistPlain⟩ := allWithin_append.1 hothers
  have hentries : GroupsWithin (fun _ => False) entries := by
    rw [← h.groups_eq]
    exact (allWithin_cons.1 hlistPlain).1.children.groups ","
  obtain ⟨first, rest, lines, rfl, hparameter, hlines, hbelow⟩ :=
    exists_parameterLines columns hwritten hterminator level h hentries
  have hparts : (modifiers ++ [list]).foldl (ParameterParts.add columns) {} =
      { modifiers := modifiers.map (parameterModifierText columns)
        head := modifiers
        assignments := first :: rest } := by
    rw [List.foldl_append, foldl_parameterModifiers columns hmodifiers, List.foldl_cons,
      List.foldl_nil, ParameterParts.add, hlist]
    simp [h.groups_eq, -String.reduceToList]
  have hend : AllPlain (keyword :: modifiers ++ first.items ++ first.separator.toList ++
      if rest.isEmpty then terminator.toList else []) := by
    have hfirst := allPlain_entry hterminator (groupsWithin_cons.1 hentries).1 rest.isEmpty
    simpa only [List.append_assoc] using
      allWithin_append.2 ⟨allWithin_cons.2 ⟨hkeyword, hmodifiersPlain⟩, hfirst⟩
  refine ⟨_, ?_, (hbelow _ _ (ink_parameterLayout columns hparameter keyword.text
    (List.intercalate " " (modifiers.map (parameterModifierText columns))) _ (level * indentWidth)
    (columnShift level))).trans ?_⟩
  · unfold parameterDeclaration
    simp only [hnode, hparts, endOfLine_plain hend, hlines, pure_bind, List.append_nil]
  · rw [ink_parameterModifierTexts, leavesAll, leavesAll_append, leavesAll, leavesAll,
      leaves_of_children_ne_nil h.nodes_ne_nil, ink_text]
    simp only [inkOf_append, List.append_nil, List.append_assoc]

end

/-! ## Continuous assignments -/

/-- A piece that is added behind a space adds its ink. -/
theorem ink_addSpaced (front piece : Text) :
    ink (addSpaced front piece) = ink front ++ ink piece := by
  unfold addSpaced
  split
  · exact ink_append _ _
  · rw [ink_append, ink_append, ink_space, List.append_nil]

/-- Phrases in the manner of keywords have the ink of their leaves. -/
theorem ink_spacedText (nodes : List Node) : ink (spacedText nodes) = inkOf (leavesAll nodes) := by
  suffices h : ∀ front, ink ((nodes.map text).foldl addSpaced front) =
      ink front ++ inkOf (leavesAll nodes) from h []
  induction nodes with
  | nil => simp [leavesAll]
  | cons node rest ih =>
      intro front
      rw [List.map_cons, List.foldl_cons, ih, ink_addSpaced, ink_text, leavesAll, inkOf_append,
        List.append_assoc]

/-- An assignment that is written as it stands has its tokens in order. -/
theorem exists_verbatimAssign {children : List Node} (hne : children ≠ []) (level : Int)
    {terminator : Option Node} (hplain : AllPlain (children ++ terminator.toList)) :
    ∃ text, verbatimAssign children level terminator = pure text ∧
      ink text = inkOf (leavesAll children) ++ ink (terminatorText terminator) := by
  obtain ⟨keyword, others, rfl⟩ := List.exists_cons_of_ne_nil hne
  have hparts : ∀ texts : List Text,
      (texts.filter (!·.isEmpty)).flatMap ink = texts.flatMap ink := by
    intro texts
    induction texts with
    | nil => rfl
    | cons text rest ih => cases text <;> simp [ih]
  refine ⟨List.intercalate " " ([keyword.text, spacedText others].filter (!·.isEmpty)) ++
    terminatorText terminator, ?_, ?_⟩
  · unfold verbatimAssign
    simp only [List.head?_cons, require, endOfLine_plain hplain, pure_bind, List.append_nil]
    rfl
  · rw [ink_append, ink_intercalate _ ink_space, hparts, List.flatMap_cons, List.flatMap_singleton,
      ink_spacedText, ink_text, leavesAll, inkOf_append]

/-- A continuous assignment is written with its tokens in order, in columns or as it stands. -/
theorem exists_continuousAssign {node keyword list : Node} {qualifiers : List Node}
    {entries : List Group} {given terminator : Option Node} (level : Int)
    (hnode : splitTerminator node.children given = (keyword :: (qualifiers ++ [list]), terminator))
    (hplain : AllPlain (node :: terminator.toList))
    (hchildren : AllPlain (keyword :: (qualifiers ++ [list]) ++ terminator.toList))
    (hkeyword : IsWritten "assign" keyword) (hlist : list.kind? = some .listOfNetAssignments)
    (h : Listed IsAssignment list.children entries) :
    ∃ text, continuousAssign columns node level given = pure text ∧
      ink text = inkOf (leavesAll (keyword :: (qualifiers ++ [list]))) ++
        ink (terminatorText terminator) := by
  unfold continuousAssign
  simp only [hnode]
  cases qualifiers with
  | nil =>
      obtain ⟨pairs, hpairs, hne, hink⟩ := h.exists_sides
      have hfound : assignPairs? [keyword, list] = some pairs := by
        rw [assignPairs?, if_pos hlist, h.groups_eq, hpairs]
      refine ⟨_, ?_, (Layout.ink_assign columns hne (terminatorText terminator)
        (level * indentWidth) (columnShift level)).trans ?_⟩
      · simp only [List.nil_append, hfound, endOfLine_plain hplain, pure_bind, List.append_nil]
      · rw [hink, List.nil_append, leavesAll, leavesAll, leavesAll, List.append_nil,
          leaves_of_children_ne_nil h.nodes_ne_nil, inkOf_append, hkeyword.leaves_eq, inkOf_cons,
          inkOf_nil, hkeyword.ink (by decide)]
        simp
  | cons qualifier others =>
      have hnone : assignPairs? (keyword :: (qualifier :: others ++ [list])) = none := by
        cases others <;> rfl
      rw [hnone]
      exact exists_verbatimAssign (by simp) level hchildren

end Render

namespace Node

variable {columns : Columns} {node : Node} {terminator : Option Node}

/-- A declaration of parameters is written as one. -/
theorem phrase_parameters {kind : Kind} (hkind : node.kind? = some kind)
    (hclass : kind.isParameterDeclaration = true) (format : Formatter) (level : Int) :
    phrase columns format node level terminator =
      parameterDeclaration columns node level terminator := by
  rw [phrase, hkind]
  cases kind <;> first | exact absurd hclass Bool.false_ne_true | rfl

namespace Assigns

/-- The children up to the list, the semicolon behind it cut off. -/
theorem splitTerminator_eq {keyword list : Node} {front : List Node} {semicolon : Option Node}
    (hnode : node.children = keyword :: (front ++ list :: semicolon.toList))
    (hlist : list.children ≠ []) (hsemicolon : ∀ token ∈ semicolon, token.isLexeme ";") :
    splitTerminator node.children terminator =
      (keyword :: (front ++ [list]), semicolon <|> terminator) := by
  have hchildren : node.children = keyword :: (front ++ [list]) ++ semicolon.toList := by
    simp [hnode]
  rw [hchildren]
  refine splitTerminator_append ?_ hsemicolon
  rw [← List.cons_append, List.getLast?_concat]
  rintro _ ⟨⟩
  exact isLexeme_of_not_isToken (isToken_of_children hlist) _

/-- The leaves of the children up to the list and of the terminator are those of the node and of
the terminator that is passed in. -/
theorem inkOf_children {keyword list : Node} {front : List Node} {semicolon : Option Node}
    (hnode : node.children = keyword :: (front ++ list :: semicolon.toList))
    (hsemicolon : ∀ token ∈ semicolon, token.isLexeme ";")
    (hone : semicolon = none ∨ terminator = none) :
    inkOf (leavesAll (keyword :: (front ++ [list]))) ++ inkOf (semicolon <|> terminator).toList =
      inkOf (node.leaves ++ terminator.toList) := by
  have hend : leavesAll semicolon.toList = semicolon.toList := by
    cases semicolon with
    | none => rfl
    | some token =>
        have htoken := hsemicolon token rfl
        rw [isLexeme, Bool.and_eq_true] at htoken
        rw [Option.toList_some, leavesAll, leavesAll, leaves_of_isToken htoken.1, List.append_nil]
  have hleaves : node.leaves =
      leavesAll (keyword :: (front ++ [list])) ++ leavesAll semicolon.toList := by
    rw [leaves_of_children_ne_nil (by simp [hnode]), hnode, ← leavesAll_append]
    simp
  rw [hleaves, hend, inkOf_append, inkOf_append, List.append_assoc]
  rcases hone with rfl | rfl
  · rfl
  · simp

/-- A declaration of parameters or a continuous assignment is written with its tokens. -/
theorem exists_phrase (columns : Columns) (h : Assigns node terminator) (hplain : node.Plain)
    (hterminator : ∀ token ∈ terminator, token.Plain) (format : Formatter) (level : Int) :
    ∃ kind, node.kind? = some kind ∧ kind.writesTerminator ∧
      ∃ body, phrase columns format node level terminator = pure body ∧
        ink body = inkOf (node.leaves ++ terminator.toList) := by
  obtain ⟨hchildren, hend⟩ := within_splitTerminator hplain.children hterminator
  -- A list of parameters is ended by whatever terminator it is given, a net assignment only by a
  -- semicolon.
  cases h with
  | @parameters keyword modifiers list entries semicolon _ hkind hnode hmodifiers hlist hlisted
      hsemicolon hgiven hone =>
      have htoken : ∀ token ∈ semicolon, token.isLexeme ";" :=
        fun token hmem => (hsemicolon token hmem).1
      have hsplit : splitTerminator node.children terminator = (_, semicolon <|> terminator) :=
        splitTerminator_eq hnode hlisted.nodes_ne_nil htoken
      have hwritten : ∀ token ∈ semicolon <|> terminator,
          IsWritten ";" token ∨ IsWritten "," token := by
        cases semicolon with
        | none => exact hgiven
        | some token => exact fun _ hmem => .inl (hsemicolon _ hmem)
      rw [hsplit] at hchildren hend
      obtain ⟨kind, hkind, hclass⟩ := (Option.any_eq_true _ _).1 hkind
      obtain ⟨text, htext, hink⟩ := exists_parameterDeclaration columns hwritten hend level hsplit
        hchildren hmodifiers hlist hlisted
      refine ⟨kind, hkind, by simp [Kind.writesTerminator, hclass], text, ?_, ?_⟩
      · rw [phrase_parameters hkind hclass, htext]
      · rw [hink, inkOf_children hnode htoken hone]
  | @nets keyword qualifiers list entries semicolon _ hkind hnode hkeyword hlist hlisted hwritten
      hone =>
      have htoken : ∀ token ∈ semicolon, token.isLexeme ";" := by
        rintro token rfl
        exact (hwritten token rfl).1
      have hsplit : splitTerminator node.children terminator = (_, semicolon <|> terminator) :=
        splitTerminator_eq hnode hlisted.nodes_ne_nil htoken
      rw [hsplit] at hchildren hend
      obtain ⟨text, htext, hink⟩ := exists_continuousAssign columns level hsplit
        (allWithin_cons.2 ⟨hplain, allWithin_toList.2 hend⟩)
        (allWithin_append.2 ⟨hchildren, allWithin_toList.2 hend⟩) hkeyword hlist hlisted
      refine ⟨.continuousAssign, hkind, rfl, text, ?_, ?_⟩
      · rw [phrase, hkind]
        exact htext
      · rw [hink, ink_terminatorText fun token hmem => .inl (hwritten token hmem),
          inkOf_children hnode htoken hone]

end Assigns

end Node

/-- A declaration of parameters or a continuous assignment without comments is written with its
tokens in order. -/
theorem Node.format_assignments (columns : Columns) {node : Node} {given : Option Node}
    (h : Assigns node.unwrap.inner (given <|> node.unwrap.terminator))
    (hnode : node.comments = []) (hgiven : ∀ token ∈ given, token.comments = []) (root : Bool)
    (level : Int) :
    ∃ text, format columns root node level given = pure text ∧
      text.ink =
        inkOf (node.unwrap.inner.leaves ++ (given <|> node.unwrap.terminator).toList) := by
  have hplain : node.Plain := plain_iff.2 hnode
  have hgiven : ∀ token ∈ given, token.Plain := fun token hmem => plain_iff.2 (hgiven token hmem)
  obtain ⟨kind, hkind, hwrites, body, hbody, hink⟩ :=
    h.exists_phrase columns (within_unwrap hplain).1 (within_terminator hplain hgiven)
      (formatAt columns node.height) level
  refine ⟨placed root node level body, format_of_phrase columns hplain hkind hwrites hgiven root
    hbody, ?_⟩
  rw [ink_placed, hink]

namespace Node

/-- A token. -/
def wordOf (name : Text) (lexeme : Text) : Node :=
  { name, value := some lexeme }

/-- A parameter and its value. -/
def assigned (name value : Text) : Node :=
  { name := "param_assignment"
    children := [wordOf "IDENTIFIER" name, wordOf "ASSIGN" "=", wordOf "NUMBER" value] }

/-- Two parameters, with tokens behind their list. -/
def twoParameters (back : List Node) : Node :=
  { name := "parameter_declaration"
    children := [
      wordOf "PARAMETER" "parameter",
      { name := "list_of_param_assignments"
        children := [assigned "W" "8", wordOf "COMMA" ",", assigned "D" "2"] }] ++ back }

theorem format_twoParameters :
    ∃ text, format Columns.standard false (twoParameters []) 1 (some (wordOf "COMMA" ",")) =
        pure text ∧
      text.ink = "parameterW=8,D=2," := by
  have hfixed : ∀ {name : Text} {lexeme : Text}, Lexeme.byName? name = some lexeme →
      IsWritten lexeme { name, value := some lexeme } :=
    fun hname => ⟨by simp [isLexeme, isToken, Node.lexeme], by simp [hname]⟩
  have hparameter : ∀ name value : Text, name ≠ "=" → inkOf [wordOf "NUMBER" value] ≠ [] →
      IsItem IsParameter [assigned name value] := by
    intro name value hname hvalue
    refine ⟨by simp, by simp [isLexeme, isToken, assigned], [wordOf "IDENTIFIER" name],
      wordOf "ASSIGN" "=", [wordOf "NUMBER" value], ⟨rfl, ?_, ?_⟩, ?_⟩
    · simpa [isLexeme, isToken, Node.lexeme, wordOf, -String.reduceToList] using hname
    · exact ⟨rfl, by rintro _ ⟨⟩⟩
    · simpa [leavesAll, leaves, wordOf] using hvalue
  have hlisted := Listed.cons (hparameter "W" "8" (by decide) (by decide))
    (@hfixed "COMMA" _ rfl) (.last (hparameter "D" "2" (by decide) (by decide)))
  have hassigns : Assigns (twoParameters []).unwrap.inner
      (some (wordOf "COMMA" ",") <|> (twoParameters []).unwrap.terminator) :=
    @Assigns.parameters _ _ [] _ _ none _ rfl rfl (by simp) rfl hlisted (by simp)
      (by rintro _ ⟨⟩; exact .inr (hfixed rfl)) (.inl rfl)
  obtain ⟨text, htext, hink⟩ := @format_assignments Columns.standard _ _ hassigns rfl
    (by rintro _ ⟨⟩; rfl) false 1
  exact ⟨text, htext, hink.trans (by decide +kernel)⟩

/-- A comma at the end of a declaration of parameters is taken for a modifier. -/
theorem format_twoParameters_comma :
    ∃ text, format Columns.standard false (twoParameters [wordOf "COMMA" ","]) 1 none =
        pure text ∧
      text.ink = "parameter,W=8,D=2" ∧
      inkOf (twoParameters [wordOf "COMMA" ","]).leaves = "parameterW=8,D=2," := by
  refine ⟨_, rfl, ?_, ?_⟩
  · decide +kernel
  · decide +kernel

end Node
end VerilogLayout

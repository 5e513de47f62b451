import VerilogLayout.Proofs.Collapse.Tree
import VerilogLayout.Proofs.Comments.Declaration
import VerilogLayout.Proofs.Tokens.List

/-!
# Instances keep their tokens

`Instantiates node terminator lines` says that a node is an instantiation of a module and that
`lines` are its leaves line by line: every connection of it, with the comma behind it, is a line.
`format_instantiation` is the result, that these are the lines which are written; below it are one
lemma for each part of an instantiation, in the order in which they are put together.
-/

namespace VerilogLayout

open Text

namespace Node

/-! ## The grammar -/

/-- A connection by name, `. name ( value )`, or one by its place. -/
inductive IsConnection : List Node → Prop where
  | named {node dot name opening value closing} : node.is Kind.isNamedConnection →
      node.children = dot :: (name ++ opening :: (value ++ [closing])) →
      IsWritten "." dot → (∀ part ∈ name, part.isLexeme "(" = false) → IsWritten "(" opening →
      IsWritten ")" closing → IsConnection [node]
  | ordered {nodes} : (∀ node ∈ nodes, node.is Kind.isNamedConnection = false) →
      IsConnection nodes

/-- Nodes between parentheses with these connections: none, or a list of them, which may be a
phrase of the kind `list`. -/
inductive Connects (list : Kind) : List Node → List Group → Prop where
  | none : Connects list [] []
  | bare {nodes connections} : (∀ node ∈ nodes, node.kind? ≠ some list) →
      Listed IsConnection nodes connections → Connects list nodes connections
  | phrase {node connections} : node.kind? = some list →
      Listed IsConnection node.children connections → Connects list [node] connections
  | empty {node} : node.kind? = some list → node.children = [] →
      Lexeme.plain node.name node.lexeme = [] → Connects list [node] []

/-- The lines of connections between parentheses, with what stands in front of them and closes
them. -/
def connectedLines (front : List Node) (connections : List Group) (closing : Node) :
    List (List Node) :=
  front :: (connections.map Group.leaves ++ [[closing]])

/-- The parameter values of an instance, `# ( connections )`, need not be there. -/
inductive Parameterizes : List Node → List (List Node) → Prop where
  | none : Parameterizes [] []
  | some {node hash opening inside closing connections} :
      node.kind? = some .parameterValueAssignment →
      node.children = hash :: opening :: (inside ++ [closing]) →
      IsWritten "#" hash → IsWritten "(" opening → IsWritten ")" closing →
      Connects .listOfParameterAssignments inside connections →
      Parameterizes [node] (connectedLines [hash, opening] connections closing)

/-- One instance, `name ( connections )`, and its lines: one if it has no connection. -/
inductive Instance : Node → List (List Node) → Prop where
  | empty {node name opening inside closing} : node.kind? = some .moduleInstance →
      node.children = name ++ opening :: (inside ++ [closing]) →
      (∀ part ∈ name, part.isLexeme "(" = false) →
      IsWritten "(" opening → IsWritten ")" closing →
      Connects .listOfPortConnections inside [] →
      Instance node [leavesAll name ++ [opening, closing]]
  | connected {node name opening inside closing connections} :
      node.kind? = some .moduleInstance →
      node.children = name ++ opening :: (inside ++ [closing]) →
      (∀ part ∈ name, part.isLexeme "(" = false) →
      IsWritten "(" opening → IsWritten ")" closing →
      Connects .listOfPortConnections inside connections → connections ≠ [] →
      Instance node (connectedLines (leavesAll name ++ [opening]) connections closing)

/-- Instances with commas between them, each of which ends its line. -/
inductive Instances : List Node → List (List Node) → Prop where
  | last {node lines} : Instance node lines → Instances [node] lines
  | cons {node lines comma nodes others} : Instance node lines → IsWritten "," comma →
      comma.kind? = none → Instances nodes others →
      Instances (node :: comma :: nodes) (meet lines ([comma] :: others))

/-- An instantiation of a module, with its semicolon at its end or passed in as `terminator`, and
its lines. -/
inductive Instantiates : Node → Option Node → List (List Node) → Prop where
  | intro {node name parameters values instances lines semicolon terminator} :
      node.kind? = some .moduleInstantiation →
      node.children = name :: (parameters ++ instances ++ semicolon.toList) →
      Parameterizes parameters values → Instances instances lines →
      (∀ token ∈ semicolon <|> terminator, IsWritten ";" token) →
      semicolon = none ∨ terminator = none →
      Instantiates node terminator
        (meet [name.leaves] (meet values (meet lines [(semicolon <|> terminator).toList])))

/-- An instance is known by its kind. -/
theorem Instance.kind?_eq {node : Node} {lines : List (List Node)} (h : Instance node lines) :
    node.kind? = some .moduleInstance := by
  cases h with
  | empty hkind => exact hkind
  | connected hkind => exact hkind

/-- Instances take one line at least. -/
theorem Instances.lines_ne_nil {nodes : List Node} {lines : List (List Node)}
    (h : Instances nodes lines) : lines ≠ [] := by
  have hone : ∀ {node lines}, Instance node lines → lines ≠ [] := by
    rintro _ _ (_ | _) <;> simp [connectedLines]
  cases h with
  | last hinstance => exact hone hinstance
  | @cons _ lines _ _ others hinstance =>
      obtain ⟨line, rest, hlines⟩ := List.exists_cons_of_ne_nil (hone hinstance)
      rw [hlines]
      cases rest <;> simp [meet]

/-- An instantiation takes one line at least. -/
theorem Instantiates.lines_ne_nil {node : Node} {terminator : Option Node}
    {lines : List (List Node)} (h : Instantiates node terminator lines) : lines ≠ [] := by
  have hmeet : ∀ line others, meet [line] others ≠ [] := by
    rintro line (_ | _) <;> simp [meet]
  cases h
  exact hmeet _ _

/-- The last instance is no semicolon. -/
theorem Instances.exists_getLast? {nodes : List Node} {lines : List (List Node)}
    (h : Instances nodes lines) : ∃ last, nodes.getLast? = some last ∧ last.isToken = false := by
  induction h with
  | @last node lines hinstance =>
      refine ⟨node, rfl, isToken_of_children ?_⟩
      cases hinstance with
      | empty _ hnode => simp [hnode]
      | connected _ hnode => simp [hnode]
  | cons _ _ _ _ ih =>
      obtain ⟨last, hlast, htoken⟩ := ih
      exact ⟨last, by simp [List.getLast?_cons, hlast], htoken⟩

/-! ## Finding the parts -/

/-- What stands between two parts is what was put there. -/
theorem between_append (front inside back : List Node) :
    between (front ++ (inside ++ back)) front.length (front.length + inside.length) = inside := by
  rw [between, ← List.append_assoc, List.take_left' (by simp), List.drop_left]

/-- The nodes between a parenthesis and the last node. -/
theorem between_parens (front inside : List Node) (opening closing : Node) :
    between (front ++ opening :: (inside ++ [closing])) (front.length + 1)
      ((front ++ opening :: (inside ++ [closing])).length - 1) = inside := by
  have hnodes : front ++ opening :: (inside ++ [closing]) =
      (front ++ [opening]) ++ (inside ++ [closing]) := by simp
  have hstop : (front ++ opening :: (inside ++ [closing])).length - 1 =
      (front ++ [opening]).length + inside.length := by
    simp only [List.length_append, List.length_cons, List.length_nil]
    omega
  have hstart : front.length + 1 = (front ++ [opening]).length := by simp
  rw [hstop, hstart, hnodes, between_append]

/-- The parts of nodes that end in a pair of parentheses. -/
theorem parens_parts {name : List Node} (inside : List Node) {opening : Node} (closing : Node)
    (hname : ∀ part ∈ name, part.isLexeme "(" = false) (hopening : IsWritten "(" opening) :
    let nodes := name ++ opening :: (inside ++ [closing])
    indexOf? "(" nodes = some name.length ∧
      between nodes (name.length + 1) (nodes.length - 1) = inside ∧
      nodes.take name.length = name :=
  ⟨indexOf?_append hname hopening.1, between_parens name inside opening closing, List.take_left⟩

namespace Connects

variable {list : Kind} {inside : List Node} {connections : List Group}

/-- The groups of a list of connections are its connections. -/
theorem groups_eq (h : Connects list inside connections) :
    groups "," (Render.flattenLists list inside) = connections := by
  have hphrase : ∀ {node : Node}, node.kind? = some list →
      Render.flattenLists list [node] = node.children := by
    intro node hkind
    simp [Render.flattenLists, hkind]
  cases h with
  | none => rfl
  | bare hkind hlisted =>
      have hsame : Render.flattenLists list inside = inside := by
        clear hlisted
        induction inside with
        | nil => rfl
        | cons node rest ih =>
            obtain ⟨hnode, hrest⟩ := List.forall_mem_cons.1 hkind
            have hstep := ih hrest
            rw [Render.flattenLists] at hstep
            rw [Render.flattenLists, List.flatMap_cons, hstep, if_neg hnode]
            rfl
      rw [hsame, hlisted.groups_eq]
  | phrase hkind hlisted => rw [hphrase hkind, hlisted.groups_eq]
  | empty hkind hchildren _ => rw [hphrase hkind, hchildren]; rfl

/-- A list is empty if there are no connections. -/
theorem isEmpty_flattenLists (h : Connects list inside connections) :
    (Render.flattenLists list inside).isEmpty = connections.isEmpty := by
  rw [← h.groups_eq]
  cases hnodes : Render.flattenLists list inside with
  | nil => rfl
  | cons node rest =>
      rw [List.isEmpty_cons, List.isEmpty_eq_false_iff.2 (groups_ne_nil "," (by simp))]

/-- Between the parentheses are the leaves of the connections. -/
theorem inkOf_eq (h : Connects list inside connections) :
    inkOf (connections.flatMap Group.leaves) = inkOf (leavesAll inside) := by
  cases h with
  | none => rfl
  | bare _ hlisted => rw [hlisted.leavesAll_eq]
  | @phrase node _ _ hlisted =>
      rw [← hlisted.leavesAll_eq, leavesAll, leavesAll, List.append_nil,
        leaves_of_children_ne_nil hlisted.nodes_ne_nil]
  | @empty node _ hchildren hplain =>
      have htext : node.text.ink = [] := by
        rw [← ink_unspaced, unspaced_text_of_leaf hchildren, hplain]
        rfl
      simp [leavesAll, leaves_of_children_eq_nil hchildren, htext]

/-- Each connection is an item with a comma behind it, or none. -/
theorem entry (h : Connects list inside connections) :
    ∀ group ∈ connections, IsItem IsConnection group.items ∧
      ∀ comma ∈ group.separator, IsWritten "," comma := by
  cases h with
  | none => simp
  | bare _ hlisted => exact hlisted.entry
  | phrase _ hlisted => exact hlisted.entry
  | empty => simp

end Connects

/-! ## The leaves of the lines -/

/-- The lines of connections have the leaves of the nodes between the parentheses. -/
theorem Connects.inkOf_lines {list : Kind} {inside : List Node} {connections : List Group}
    (h : Connects list inside connections) (front : List Node) (closing : Node) :
    inkOf (connectedLines front connections closing).flatten =
      inkOf front ++ (inkOf (leavesAll inside) ++ inkOf [closing]) := by
  rw [← h.inkOf_eq, connectedLines, List.flatten_cons, List.flatten_append, List.flatMap_def]
  simp

/-- The lines of parameter values have the ink of the values. -/
theorem Parameterizes.inkOf_lines {parameters : List Node} {values : List (List Node)}
    (h : Parameterizes parameters values) :
    inkOf values.flatten = inkOf (leavesAll parameters) := by
  cases h with
  | none => rfl
  | some hkind hnode hhash hopening hclosing hinside =>
      rw [hinside.inkOf_lines, leavesAll, leavesAll, List.append_nil,
        leaves_of_children_ne_nil (by simp [hnode]), hnode]
      simp [leavesAll, hhash.leaves_eq, hopening.leaves_eq, hclosing.leaves_eq]

/-- The lines of an instance have the ink of the instance. -/
theorem Instance.inkOf_lines {node : Node} {lines : List (List Node)} (h : Instance node lines) :
    inkOf lines.flatten = inkOf node.leaves := by
  cases h with
  | empty hkind hnode hname hopening hclosing hinside =>
      have hink := hinside.inkOf_eq
      rw [leaves_of_children_ne_nil (by simp [hnode]), hnode]
      simp [leavesAll, hopening.leaves_eq, hclosing.leaves_eq, ← hink]
  | connected hkind hnode hname hopening hclosing hinside _ =>
      rw [hinside.inkOf_lines, leaves_of_children_ne_nil (by simp [hnode]), hnode]
      simp [leavesAll, hopening.leaves_eq, hclosing.leaves_eq]

/-- The lines of instances have the ink of all of them. -/
theorem Instances.inkOf_lines {nodes : List Node} {lines : List (List Node)}
    (h : Instances nodes lines) : inkOf lines.flatten = inkOf (leavesAll nodes) := by
  induction h with
  | last hinstance => simp [leavesAll, hinstance.inkOf_lines]
  | cons hinstance hcomma _ _ ih =>
      simp [meet_flatten, leavesAll, hinstance.inkOf_lines, hcomma.leaves_eq, ih]

/-- The lines of an instantiation have its leaves and the terminator that is passed in. -/
theorem Instantiates.inkOf_lines {node : Node} {terminator : Option Node}
    {lines : List (List Node)} (h : Instantiates node terminator lines) :
    inkOf lines.flatten = inkOf (node.leaves ++ terminator.toList) := by
  obtain ⟨hkind, hnode, hparameters, hinstances, hwritten, hone⟩ := h
  have hleaves : node.leaves = leavesAll node.children :=
    leaves_of_children_ne_nil (by simp [hnode])
  rw [hleaves, hnode]
  simp only [meet_flatten, inkOf_append, hparameters.inkOf_lines, hinstances.inkOf_lines, leavesAll,
    leavesAll_append, List.flatten_cons, List.flatten_nil, List.append_nil, List.append_assoc]
  rcases hone with rfl | rfl
  · rfl
  · rename_i semicolon
    cases semicolon with
    | none => rfl
    | some token => simp [leavesAll, (hwritten token rfl).leaves_eq]

end Node

namespace Layout

open Node

theorem unspaced_place (line : Line) (field : Text) (target gap : Int) :
    unspaced (line.place field target gap).text = unspaced line.text ++ unspaced field := by
  unfold Line.place
  split
  · next hempty => rw [List.isEmpty_iff.1 hempty, unspaced_nil, List.append_nil]
  · rw [Line.append, unspaced_append, unspaced_append, unspaced_spaces, List.nil_append]

theorem unspaced_connection (name value : Text) (column : Int) (terminator : Text) (start : Int) :
    unspaced (connection name value column terminator start) =
      "." ++ unspaced name ++ ("(" ++ unspaced value ++ ")") ++ unspaced terminator := by
  have hdot : unspaced "." = "." := rfl
  have hopening : unspaced "(" = "(" := rfl
  have hclosing : unspaced ")" = ")" := rfl
  simp only [connection, Line.append, unspaced_append, unspaced_place, hdot, hopening, hclosing,
    List.nil_append]

end Layout

namespace Render

open Node

variable {columns : Columns} {level : Int}

/-! ## Connections -/

/-- The name and the value of a connection by name. -/
theorem namedParts_eq {node dot opening closing : Node} {name value : List Node}
    (hnode : node.children = dot :: (name ++ opening :: (value ++ [closing])))
    (hdot : IsWritten "." dot) (hname : ∀ part ∈ name, part.isLexeme "(" = false)
    (hopening : IsWritten "(" opening) (hclosing : IsWritten ")" closing) :
    namedParts node = (joinedText name, joinedText value) := by
  have hfront : ∀ part ∈ dot :: name, part.isLexeme "(" = false :=
    List.forall_mem_cons.2 ⟨isLexeme_ne hdot.1 (by decide), hname⟩
  have hchildren : node.children = (dot :: name) ++ opening :: (value ++ [closing]) := hnode
  have hstart : indexOf? "." node.children = some 0 := by
    rw [hnode]
    have hnone : ∀ part ∈ ([] : List Node), part.isLexeme "." = false := by simp
    exact indexOf?_append hnone hdot.1
  have hplace : indexOf? "(" node.children = some (name.length + 1) := by
    rw [hchildren]
    exact indexOf?_append hfront hopening.1
  have hcloses : (node.children.getLast?).any (isLexeme ")") = true := by
    have hlast : node.children.getLast? = some closing := by
      rw [hchildren]
      simp [List.getLast?_append, List.getLast?_cons]
    rw [hlast, Option.any_some, hclosing.1]
  have hinside : between node.children 1 (name.length + 1) = name := by
    rw [hnode, Nat.add_comm]
    exact between_append [dot] name (opening :: (value ++ [closing]))
  have hvalue : between node.children (name.length + 1 + 1) (node.children.length - 1) = value := by
    rw [hchildren]
    exact between_parens (dot :: name) value opening closing
  unfold namedParts
  simp only [hstart, hplace, hcloses, if_true, through, Option.map_some, Option.getD_some, hinside,
    hvalue]

/-- A connection without its spaces is its leaves, with those of the comma behind it. -/
theorem unspaced_connectionBody {item : Node} {others : List Node}
    (h : IsConnection (item :: others)) (comma : Text) (column start : Int) :
    unspaced (
      if others.isEmpty && item.is Kind.isNamedConnection then
        Layout.connection (namedParts item).1 (namedParts item).2 column comma start
      else
        joinedText (item :: others) ++ comma) =
      solidOf (leavesAll (item :: others)) ++ unspaced comma := by
  cases h with
  | @named _ dot name opening value closing hkind hnode hdot hname hopening hclosing =>
      have hleaves : item.leaves = dot :: (leavesAll name ++ opening :: (leavesAll value ++
          [closing])) := by
        rw [leaves_of_children_ne_nil (by simp [hnode]), hnode]
        simp [leavesAll, hdot.leaves_eq, hopening.leaves_eq, hclosing.leaves_eq]
      rw [if_pos (by simp [hkind]), namedParts_eq hnode hdot hname hopening hclosing]
      simp only [Layout.unspaced_connection, unspaced_joinedText, leavesAll, hleaves,
        List.append_nil, solidOf_cons, solidOf_append, solidOf_nil, hdot.unspaced_text (by decide),
        hopening.unspaced_text (by decide), hclosing.unspaced_text (by decide), List.append_assoc]
  | ordered hkind =>
      rw [if_neg (by simp [hkind item List.mem_cons_self]), unspaced_append, unspaced_joinedText]

/-- A connection is written with its comma on a line of its own. -/
theorem exists_connectionLines {connections : List Group}
    (h : ∀ group ∈ connections, IsItem IsConnection group.items ∧
      ∀ comma ∈ group.separator, IsWritten "," comma)
    (hplain : GroupsWithin (fun _ => False) connections) (column : Int) :
    ∃ text, connectionLines level column connections = pure text ∧
      Prints text (connections.map Group.leaves ++ [[]]) := by
  induction connections with
  | nil => exact ⟨[], rfl, rfl⟩
  | cons group rest ih =>
      obtain ⟨⟨hitem, hseparator⟩, hothers⟩ := List.forall_mem_cons.1 h
      obtain ⟨hgroup, hrest⟩ := groupsWithin_cons.1 hplain
      obtain ⟨lines, hlines, hprints⟩ := ih hothers hrest
      obtain ⟨_ | ⟨item, others⟩, separator⟩ := group
      · exact absurd rfl hitem.ne_nil
      have hcomma : unspaced (if separator.isSome then "," else "") =
          solidOf (leavesAll separator.toList) := by
        cases separator with
        | none => rfl
        | some comma =>
            have hwritten : IsWritten "," comma := hseparator comma rfl
            have hunspaced : unspaced "," = "," := rfl
            simp [leavesAll, hwritten.leaves_eq, hwritten.unspaced_text (by decide), hunspaced,
              -String.reduceToList]
      have hbody := unspaced_connectionBody hitem.item
        (if separator.isSome then "," else "") (column + columnShift level 2) (level * indentWidth)
      unfold connectionLines
      simp only [endOfLine_plain hgroup, hlines, pure_bind, List.append_nil]
      refine ⟨_, rfl, hprints.line ?_ (by simp)⟩
      rw [unspaced_append, unspaced_indentFor, List.nil_append, hbody, hcomma, ← solidOf_append,
        ← leavesAll_append]
      rfl

/-- The connections between parentheses, one on a line. -/
theorem exists_linesBetween (level : Int) {list : Kind} {nodes inside : List Node}
    {connections : List Group} (h : Connects list inside connections) (hplain : AllPlain nodes)
    {start stop : Nat} (hinside : between nodes start stop = inside) (column : Int) :
    ∃ text, connectionLines level column (groups "," (flattenLists list inside)) = pure text ∧
      Prints text (connections.map Group.leaves ++ [[]]) := by
  have hgroups := ((hplain.subset (between_subset nodes start stop)).flattenLists list).groups ","
  rw [hinside, h.groups_eq] at hgroups
  rw [h.groups_eq]
  exact exists_connectionLines h.entry hgroups column

/-- Lines of connections behind a line that ends in an opening parenthesis. -/
theorem prints_connected (level : Int) {front lines : Text} {leaves : List Node}
    {connections : List Group} {closing : Node} (hfront : unspaced front = solidOf leaves)
    (hlines : Prints lines (connections.map Group.leaves ++ [[]]))
    (hclosing : IsWritten ")" closing) :
    Prints (front ++ "\n" ++ lines ++ indentFor level ++ ")")
      (connectedLines leaves connections closing) := by
  have hend : unspaced (indentFor level ++ ")") = solidOf [closing] := by
    rw [unspaced_append, unspaced_indentFor, solidOf_cons, hclosing.unspaced_text (by decide)]
    rfl
  rw [List.append_assoc _ (indentFor level), List.append_assoc _ lines]
  exact .line hfront (hlines.behind hend) (by simp)

/-! ## Parameter values and instances -/

section
variable (columns : Columns) (level : Int)

/-- A renderer of a part of an instantiation writes these lines and a parenthesis at the end of the
last of them. -/
def PrintsPart (m : Render (Text × List Node)) (lines : List (List Node)) : Prop :=
  ∃ text pending, m = pure (text, pending) ∧ AllPlain pending ∧
    text.getLast? = some (.char ')') ∧ Prints text lines

theorem prints_parameterBlock {node hash opening closing : Node} {inside : List Node}
    {connections : List Group} (hplain : node.Plain)
    (hnode : node.children = hash :: opening :: (inside ++ [closing])) (hhash : IsWritten "#" hash)
    (hopening : IsWritten "(" opening) (hclosing : IsWritten ")" closing)
    (hinside : Connects .listOfParameterAssignments inside connections) {pending : List Node}
    (hpending : AllPlain pending) :
    PrintsPart (parameterBlock columns node level pending)
      (connectedLines [hash, opening] connections closing) := by
  have hchildren : node.children = [hash] ++ opening :: (inside ++ [closing]) := hnode
  have hname : ∀ part ∈ [hash], part.isLexeme "(" = false := by
    simpa using isLexeme_ne hhash.1 (by decide)
  obtain ⟨hplace, hbetween, -⟩ := parens_parts inside closing hname hopening
  rw [← hchildren] at hplace hbetween
  have hfront : unspaced "#(" = solidOf [hash, opening] := by
    rw [solidOf_cons, solidOf_cons, hhash.unspaced_text (by decide),
      hopening.unspaced_text (by decide)]
    rfl
  have hall := Within.children hplain
  obtain ⟨lines, hlines, hprints⟩ := exists_linesBetween (level + 1) hinside hall hbetween
    (columns .parameterValue)
  refine ⟨_, node.children.getLast?.toList, ?_, hall.getLast?, getLast?_append_eq rfl,
    prints_connected level hfront hprints hclosing⟩
  unfold parameterBlock
  simp only [List.length_singleton] at hplace hbetween
  simp only [hplace, hbetween, hlines, pure_bind, List.append_nil,
    endOfLine_plain (allWithin_append.2 ⟨hpending, hall.subset (List.take_subset _ _)⟩)]

theorem prints_instanceBlock {node : Node} {lines : List (List Node)} (h : Instance node lines)
    (hplain : node.Plain) {pending : List Node} (hpending : AllPlain pending) :
    PrintsPart (instanceBlock columns node level pending) lines := by
  have hall := Within.children hplain
  -- An instance without connections keeps its parentheses on one line; the others open a line for
  -- each connection.
  cases h with
  | @empty name opening inside closing hkind hnode hname hopening hclosing hinside =>
      obtain ⟨hplace, hbetween, htake⟩ := parens_parts inside closing hname hopening
      rw [← hnode] at hplace hbetween htake
      have hempty : (flattenLists .listOfPortConnections inside).isEmpty = true :=
        hinside.isEmpty_flattenLists
      have hparens : unspaced " ()" = "(" ++ ")" := rfl
      have hline : unspaced (joinedText name ++ " ()") =
          solidOf (leavesAll name ++ [opening, closing]) := by
        rw [unspaced_append, unspaced_joinedText, hparens]
        simp only [solidOf_append, solidOf_cons, solidOf_nil, hopening.unspaced_text (by decide),
          hclosing.unspaced_text (by decide), List.append_nil]
      refine ⟨joinedText name ++ " ()", pending ++ node.children, ?_,
        allWithin_append.2 ⟨hpending, hall⟩, getLast?_append_eq rfl, prints_singleton.2 hline⟩
      unfold instanceBlock
      simp only [hplace, hbetween, htake, hempty, if_true]
  | @connected name opening inside closing connections hkind hnode hname hopening hclosing
      hinside hne =>
      obtain ⟨hplace, hbetween, htake⟩ := parens_parts inside closing hname hopening
      rw [← hnode] at hplace hbetween htake
      have hempty : (flattenLists .listOfPortConnections inside).isEmpty = false := by
        rw [hinside.isEmpty_flattenLists, List.isEmpty_eq_false_iff]
        exact hne
      have hfront : unspaced (joinedText name ++ " (") = solidOf (leavesAll name ++ [opening]) := by
        rw [unspaced_append, unspaced_joinedText, solidOf_append, solidOf_cons,
          hopening.unspaced_text (by decide)]
        rfl
      obtain ⟨lines, hlines, hprints⟩ := exists_linesBetween (level + 1) hinside hall hbetween
        (columns .portValue)
      refine ⟨_, node.children.getLast?.toList, ?_, hall.getLast?, getLast?_append_eq rfl,
        prints_connected level hfront hprints hclosing⟩
      unfold instanceBlock
      simp only [hplace, hbetween, htake, hempty, hlines, pure_bind, List.append_nil,
        Bool.false_eq_true, if_false,
        endOfLine_plain (allWithin_append.2 ⟨hpending, hall.subset (List.take_subset _ _)⟩)]

/-! ## Instantiations -/

/-- What is read of an instantiation in front of its instances. -/
theorem exists_readParameters {parameters : List Node} {values : List (List Node)}
    (h : Parameterizes parameters values) (hplain : AllPlain parameters) {done : Instantiation}
    (hpending : AllPlain done.pending) :
    ∃ text pending, AllPlain pending ∧ Prints text values ∧ ∀ rest,
      readInstantiation columns level done (parameters ++ rest) =
        readInstantiation columns level { done with text := done.text ++ text, pending } rest := by
  cases h with
  | none => exact ⟨[], done.pending, hpending, rfl, fun rest => by simp⟩
  | some hkind hnode hhash hopening hclosing hinside =>
      obtain ⟨block, pending, hblock, hpending, -, hprints⟩ := prints_parameterBlock
        columns level (hplain _ List.mem_cons_self) hnode hhash hopening hclosing hinside hpending
      refine ⟨" " ++ block, pending, hpending, hprints.after rfl, fun rest => ?_⟩
      rw [List.singleton_append, readInstantiation, hkind]
      simp only [hblock, pure_bind, List.append_assoc]

/-- The instances of an instantiation are read in order and written on these lines. -/
theorem exists_instanceLines {nodes : List Node} {lines : List (List Node)}
    (h : Instances nodes lines) (hplain : AllPlain nodes) :
    ∃ instances, (∀ done, readInstantiation columns level done nodes =
        pure { done with instances := done.instances ++ instances }) ∧
      ∀ isFirst pending, AllPlain pending →
        PrintsPart (instanceLines columns level isFirst pending instances) lines := by
  have hread : ∀ {node lines} (rest : List Node) (done : Instantiation), Instance node lines →
      readInstantiation columns level done (node :: rest) = readInstantiation columns level
        { done with instances := done.instances ++ [(node, none)] } rest := by
    intro node lines rest done hinstance
    rw [readInstantiation, hinstance.kind?_eq]
  have hgap : ∀ isFirst : Bool, unspaced (if isFirst then " " else indentFor level) = [] := by
    intro isFirst
    cases isFirst
    · exact unspaced_indentFor level
    · rfl
  -- Reading collects the instances from the front and writing goes through them once more, so the
  -- induction carries both.
  induction h with
  | @last node lines hinstance =>
      refine ⟨[(node, none)], fun done => by rw [hread [] done hinstance, readInstantiation], ?_⟩
      intro isFirst pending hpending
      obtain ⟨body, behind, hbody, hbehind, hlast, hprints⟩ :=
        prints_instanceBlock columns level hinstance (hplain node List.mem_cons_self) hpending
      refine ⟨_, behind, ?_, hbehind, getLast?_append_eq hlast, hprints.after (hgap isFirst)⟩
      simp only [instanceLines, hbody, pure_bind, List.append_nil]
  | @cons node lines comma nodes others hinstance hcomma hkind hnodes ih =>
      obtain ⟨hnode, hrest⟩ := allWithin_cons.1 hplain
      obtain ⟨hcommaPlain, hrest⟩ := allWithin_cons.1 hrest
      obtain ⟨instances, hinstances, hwrites⟩ := ih hrest
      refine ⟨(node, some comma) :: instances, fun done => ?_, ?_⟩
      · rw [hread _ done hinstance, readInstantiation, hkind]
        simp [hcomma.1, hinstances, setComma, -String.reduceToList]
      · intro isFirst pending hpending
        obtain ⟨body, behind, hbody, hbehind, -, hprints⟩ :=
          prints_instanceBlock columns level hinstance hnode hpending
        obtain ⟨text, pending', htext, hpending', hlast, hothers⟩ := hwrites false [] allWithin_nil
        have hcommas : unspaced "," = solidOf [comma] := by
          rw [solidOf_cons, hcomma.unspaced_text (by decide)]
          rfl
        have hpart := (hprints.after (hgap isFirst)).append
          (.line hcommas hothers hnodes.lines_ne_nil)
        refine ⟨_, pending', ?_, hpending', getLast?_append_eq (getLast?_append_eq hlast), hpart⟩
        simp only [instanceLines, hbody, htext, pure_bind, List.nil_append, List.append_assoc,
          endOfLine_plain (allWithin_append.2 ⟨hbehind, allWithin_cons.2
            ⟨hcommaPlain, allWithin_nil⟩⟩)]

/-- A semicolon is written as one. -/
theorem terminatorText_eq {token : Node} (h : IsWritten ";" token) :
    terminatorText (some token) = ";" :=
  h.lexeme_eq.2

theorem unspaced_terminatorText {terminator : Option Node}
    (h : ∀ token ∈ terminator, IsWritten ";" token) :
    unspaced (terminatorText terminator) = solidOf terminator.toList := by
  cases terminator with
  | none => rfl
  | some token =>
      rw [Option.toList_some, solidOf_cons, (h token rfl).unspaced_text (by decide),
        terminatorText_eq (h token rfl)]
      rfl

/-- An instantiation is written on its lines, the last of which stays open. -/
theorem exists_moduleInstantiation {node : Node} {terminator : Option Node}
    {lines : List (List Node)} (h : Instantiates node terminator lines) (hplain : node.Plain)
    (hterminator : ∀ token ∈ terminator, token.Plain) :
    ∃ text, moduleInstantiation columns node level terminator = pure text ∧
      text.getLast?.any (· ≠ .char '\n') ∧ Prints text lines := by
  obtain @⟨name, parameters, values, instances, lines, semicolon, _, hkind, hnode, hparameters,
    hinstances, hwritten, hone⟩ := h
  have hall := Within.children hplain
  rw [hnode] at hall
  obtain ⟨hname, hall⟩ := allWithin_cons.1 hall
  obtain ⟨hall, hsemicolon⟩ := allWithin_append.1 hall
  obtain ⟨hparametersPlain, hinstancesPlain⟩ := allWithin_append.1 hall
  have hplainEnd : AllPlain (semicolon <|> terminator).toList := by
    cases semicolon with
    | none => exact allWithin_toList.2 hterminator
    | some token => exact hsemicolon
  have hsplit : splitTerminator node.children terminator =
      (name :: (parameters ++ instances), semicolon <|> terminator) := by
    have hend : ∀ last ∈ (name :: (parameters ++ instances)).getLast?,
        last.isLexeme ";" = false := by
      obtain ⟨last, hlast, htoken⟩ := hinstances.exists_getLast?
      rw [← List.cons_append, List.getLast?_append, hlast, Option.some_or]
      rintro _ ⟨⟩
      exact isLexeme_of_not_isToken htoken _
    have hsemicolon : ∀ token ∈ semicolon, token.isLexeme ";" := by
      rintro token rfl
      exact (hwritten token rfl).1
    rw [hnode]
    exact splitTerminator_append hend hsemicolon
  -- The comments of the name wait for the first line that can take them.
  have hnamed : AllPlain ({ text := name.text, pending := [name] } : Instantiation).pending :=
    allWithin_cons.2 ⟨hname, allWithin_nil⟩
  obtain ⟨block, pending, hpending, hvalues, hreadValues⟩ :=
    exists_readParameters columns level hparameters hparametersPlain hnamed
  obtain ⟨read, hread, hwrites⟩ := exists_instanceLines columns level hinstances hinstancesPlain
  obtain ⟨body, behind, hbody, hbehind, hlast, hlines⟩ := hwrites true pending hpending
  have hfront : Prints name.text [name.leaves] :=
    prints_singleton.2 (unspaced_text name)
  have hend : Prints (terminatorText (semicolon <|> terminator))
      [(semicolon <|> terminator).toList] :=
    prints_singleton.2 (unspaced_terminatorText hwritten)
  refine ⟨_, ?_, ?_, hfront.append (hvalues.append (hlines.append hend))⟩
  · unfold moduleInstantiation
    simp only [hsplit, hreadValues, hread, hbody, pure_bind, List.nil_append, List.append_nil,
      List.append_assoc, endOfLine_plain (allWithin_append.2 ⟨hbehind, hplainEnd⟩)]
  · have hbodyEnd :
        (body ++ terminatorText (semicolon <|> terminator)).getLast?.any (· ≠ .char '\n') := by
      cases hsome : semicolon <|> terminator with
      | none => simp [terminatorText, hlast]
      | some token =>
          rw [terminatorText_eq (hwritten token hsome), getLast?_append_eq (c := ';') rfl]
          rfl
    obtain ⟨c, hc, hfeed⟩ := (Option.any_eq_true _ _).1 hbodyEnd
    rw [getLast?_append_eq (getLast?_append_eq hc)]
    exact hfeed

end

/-- A phrase of a major kind is indented, and ended by a line feed. -/
theorem exists_placed_eq (root : Bool) {node : Node} (level : Int) {body : Text}
    (hmajor : node.unwrap.inner.is Kind.isMajor) (hlast : body.getLast?.any (· ≠ .char '\n')) :
    ∃ gap, unspaced gap = [] ∧ placed root node level body = gap ++ body ++ "\n" := by
  have hflag : (root || (node.unwrap.wrappers ++ [node.unwrap.inner]).any (·.is Kind.isMajor)) =
      true := by
    simp [hmajor]
  obtain ⟨c, hc, hfeed⟩ := (Option.any_eq_true _ _).1 hlast
  have hends : ∀ gap : Text, (gap ++ body).isEmpty = false ∧ endsLine (gap ++ body) = false := by
    intro gap
    have hend : (gap ++ body).getLast? = some c := getLast?_append_eq hc
    refine ⟨List.isEmpty_eq_false_iff.2 fun hempty => by simp [hempty] at hend, ?_⟩
    rw [Bool.eq_false_iff, Ne, endsLine_iff, hend]
    simpa using hfeed
  have hbody : body.isEmpty = false ∧ endsLine body = false := hends []
  unfold placed
  simp only [hflag, Bool.true_and]
  split
  · exact ⟨[], rfl, by rw [hbody.1, hbody.2]; rfl⟩
  · refine ⟨indentFor level, unspaced_indentFor level, ?_⟩
    rw [(hends (indentFor level)).1, (hends (indentFor level)).2]
    rfl

end Render

open Render

/-- An instantiation of a module without comments is written with its tokens in order and one
connection on a line: its text is these lines, and so are the lines of its text if no token of it
breaks a line. -/
theorem Node.format_instantiation (columns : Columns) {node : Node} {lines : List (List Node)}
    {given : Option Node}
    (h : Instantiates node.unwrap.inner (given <|> node.unwrap.terminator) lines)
    (hnode : node.comments = []) (hgiven : ∀ token ∈ given, token.comments = []) (root : Bool)
    (level : Int) :
    ∃ text, format columns root node level given = pure text ∧
      text.ink = inkOf (node.unwrap.inner.leaves ++ (given <|> node.unwrap.terminator).toList) ∧
      Prints text (lines ++ [[]]) ∧
      ((∀ line ∈ lines, ∀ leaf ∈ line, .char '\n' ∉ leaf.text) →
        (List.splitOn (.char '\n') text).map ink = lines.map inkOf ++ [[]]) := by
  have hplain : node.Plain := plain_iff.2 hnode
  have hgiven : ∀ token ∈ given, token.Plain := fun token hmem => plain_iff.2 (hgiven token hmem)
  have hkind : node.unwrap.inner.kind? = some .moduleInstantiation := by
    cases h with
    | intro hkind => exact hkind
  obtain ⟨body, hbody, hlast, hlines⟩ :=
    exists_moduleInstantiation columns level h (within_unwrap hplain).1
      (within_terminator hplain hgiven)
  obtain ⟨gap, hgap, hplaced⟩ := exists_placed_eq root level (by rw [is, hkind]; rfl) hlast
  have hphrase : phrase columns (formatAt columns node.height) node.unwrap.inner level
      (given <|> node.unwrap.terminator) = pure body := by
    rw [phrase, hkind]
    exact hbody
  have hprints : Prints (gap ++ body ++ "\n") (lines ++ [[]]) :=
    (hlines.after hgap).feed h.lines_ne_nil
  refine ⟨gap ++ body ++ "\n", ?_, ?_, hprints, fun hfeed => ?_⟩
  · rw [format_of_phrase columns hplain hkind rfl hgiven root hphrase, hplaced]
  · rw [hprints.ink, List.flatten_concat, List.append_nil, h.inkOf_lines]
  · have hall : ∀ line ∈ lines ++ [[]], ∀ leaf ∈ line, .char '\n' ∉ leaf.text :=
      List.forall_mem_append.2 ⟨hfeed, by simp⟩
    rw [hprints.lines (by simp) hall, List.map_append]
    rfl

namespace Node

/-- A connection by name, with a word on either side. -/
def namedWords (kind : Text) (name value : Text) : Node :=
  { name := kind
    children := [
      { name := "DOT", value := some ("." : Text) },
      { name := "IDENTIFIER", value := some name },
      { name := "LPAREN", value := some ("(" : Text) },
      { name := "IDENTIFIER", value := some value },
      { name := "RPAREN", value := some (")" : Text) }] }

/-- An instance with a connection by name and one by its place. -/
def connectedInstance : Node :=
  { name := "module_instance"
    children := [
      { name := "IDENTIFIER", value := some ("u" : Text) },
      { name := "LPAREN", value := some ("(" : Text) },
      { name := "list_of_port_connections"
        children := [
          namedWords "named_port_connection" "a" "x",
          { name := "COMMA", value := some ("," : Text) },
          { name := "IDENTIFIER", value := some ("y" : Text) }] },
      { name := "RPAREN", value := some (")" : Text) }] }

/-- An instance without connections. -/
def emptyInstance : Node :=
  { name := "module_instance"
    children := [
      { name := "IDENTIFIER", value := some ("v" : Text) },
      { name := "LPAREN", value := some ("(" : Text) },
      { name := "RPAREN", value := some (")" : Text) }] }

/-- Two instances of a module with a parameter. -/
def twoInstances : Node :=
  { name := "module_instantiation"
    children := [
      { name := "IDENTIFIER", value := some ("sub" : Text) },
      { name := "parameter_value_assignment"
        children := [
          { name := "HASH", value := some ("#" : Text) },
          { name := "LPAREN", value := some ("(" : Text) },
          namedWords "named_parameter_assignment" "W" "n",
          { name := "RPAREN", value := some (")" : Text) }] },
      connectedInstance,
      { name := "COMMA", value := some ("," : Text) },
      emptyInstance] }

theorem format_twoInstances :
    ∃ text, format Columns.standard false twoInstances 1
        (some { name := "SEMI", value := some (";" : Text) }) = pure text ∧
      text.ink = "sub#(.W(n))u(.a(x),y),v();" ∧
      (List.splitOn (.char '\n') text).map ink =
        (["sub#(", ".W(n)", ")u(", ".a(x),", "y", "),", "v();", ""] : List Text) := by
  have hfixed : ∀ {name : Text} {lexeme : Text}, Lexeme.byName? name = some lexeme →
      IsWritten lexeme { name, value := some lexeme } :=
    fun hname => ⟨by simp [isLexeme, isToken, Node.lexeme], by simp [hname]⟩
  have hword : ∀ lexeme : Text, lexeme ≠ "(" →
      ∀ part ∈ [({ name := "IDENTIFIER", value := some lexeme } : Node)],
        part.isLexeme "(" = false := by
    intro lexeme hne
    simpa [isLexeme, isToken, Node.lexeme, -String.reduceToList] using hne
  have hnamed : ∀ (kind : Text) (name value : Text), (namedWords kind name value).is
      Kind.isNamedConnection → name ≠ "(" → IsItem IsConnection [namedWords kind name value] :=
    fun kind name value hkind hname =>
      ⟨by simp, by simp [namedWords, isLexeme, isToken], @IsConnection.named _ _
        [{ name := "IDENTIFIER", value := some name }] _
        [{ name := "IDENTIFIER", value := some value }] _ hkind rfl (hfixed rfl) (hword name hname)
        (hfixed rfl) (hfixed rfl)⟩
  have hparameters := Listed.last (hnamed "named_parameter_assignment" "W" "n" rfl (by decide))
  have hcomma : IsWritten "," { name := "COMMA", value := some ("," : Text) } := hfixed rfl
  have hordered : IsItem IsConnection [{ name := "IDENTIFIER", value := some ("y" : Text) }] :=
    ⟨by simp, by decide, .ordered (by decide)⟩
  have hports := Listed.cons (hnamed "named_port_connection" "a" "x" rfl (by decide)) hcomma
    (.last hordered)
  have hfirst : Instance connectedInstance _ := @Instance.connected connectedInstance [_] _ [_] _ _
    rfl rfl (hword "u" (by decide)) (hfixed rfl) (hfixed rfl) (.phrase rfl hports) (by simp)
  have hsecond : Instance emptyInstance _ := @Instance.empty emptyInstance [_] _ [] _ rfl rfl
    (hword "v" (by decide)) (hfixed rfl) (hfixed rfl) .none
  have hall : Instantiates twoInstances.unwrap.inner
      (some { name := "SEMI", value := some (";" : Text) }) _ :=
    @Instantiates.intro twoInstances _ [_] _ [_, _, _] _ none _ rfl rfl
      (@Parameterizes.some _ _ _ [_] _ _ rfl rfl (hfixed rfl) (hfixed rfl) (hfixed rfl)
        (.bare (by decide) hparameters))
      (.cons hfirst hcomma rfl (.last hsecond)) (by rintro _ ⟨⟩; exact hfixed rfl) (.inl rfl)
  have hgiven : ∀ token ∈ some ({ name := "SEMI", value := some (";" : Text) } : Node),
      token.comments = [] := by
    rintro _ ⟨⟩
    rfl
  obtain ⟨text, htext, hink, -, hlines⟩ :=
    @format_instantiation Columns.standard _ _ _ hall rfl hgiven false 1
  exact ⟨text, htext, hink.trans (by decide +kernel),
    (hlines (by decide +kernel)).trans (by decide +kernel)⟩

end Node
end VerilogLayout

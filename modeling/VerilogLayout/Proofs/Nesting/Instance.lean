import VerilogLayout.Proofs.Nesting.Declaration
import VerilogLayout.Proofs.Tokens.Position

/-!
# Deeper levels

An instantiation nests as well: a connection stands one level deeper than its instance, and its
columns move with it. Only an instance that follows another one needs its comma, since it ends the
line of the one in front; `instancesApart` says that the commas are there. `format_deeper` is the
result: a construct one level deeper is the same construct with every line indented.
-/

namespace VerilogLayout

open Text Render

namespace Node

/-! ## Instances with commas between them -/

/-- An instance of a module. -/
def isInstance (node : Node) : Bool :=
  node.kind? = some .moduleInstance

/-- A comma between instances. -/
def isSeparator (node : Node) : Bool :=
  node.isLexeme "," && node.kind? ≠ some .parameterValueAssignment

/-- Two instances among the nodes have a comma between them, and there is none behind the last one.
`isOpen` says that an instance which has no comma yet stands in front of the nodes. -/
def instancesApart (isOpen : Bool) : List Node → Bool
  | [] => true
  | node :: rest =>
      if node.isInstance then !isOpen && instancesApart true rest
      else if node.isSeparator then (!isOpen || rest.any isInstance) && instancesApart false rest
      else instancesApart isOpen rest

/-- The constructs whose lines follow their level. -/
inductive FollowsLevel : Node → Prop where
  | port {node} : node.is Kind.isPortDeclaration → FollowsLevel node
  | signal {node} : node.is Kind.isSignalDeclaration → FollowsLevel node
  | parameter {node} : node.is Kind.isParameterDeclaration → FollowsLevel node
  | assign {node} : node.kind? = some .continuousAssign → FollowsLevel node
  | instantiation {node} : node.kind? = some .moduleInstantiation →
      instancesApart false ((splitTerminator node.children none).1.drop 1) → FollowsLevel node

end Node

namespace Layout

theorem oneLine_connection {name value terminator : Text} (hname : OneLine name)
    (hvalue : OneLine value) (hterminator : OneLine terminator) (column start : Int) :
    OneLine (connection name value column terminator start) := by
  have hdot : OneLine "." := by decide
  have hopening : OneLine "(" := by decide
  have hclosing : OneLine ")" := by decide
  rw [← oneLine_unspaced, unspaced_connection]
  simp only [oneLine_append, oneLine_unspaced, hname, hvalue, hterminator, hdot, hopening, hclosing,
    and_self]

end Layout

namespace Render

open Node

variable (columns : Columns)

/-! ## Connections -/

theorem oneLine_namedParts {node : Node} (h : node.Straight) :
    OneLine (namedParts node).1 ∧ OneLine (namedParts node).2 := by
  unfold namedParts
  dsimp only
  split
  · exact ⟨(h.children.subset (List.drop_subset _ _)).oneLine_joinedText, oneLine_nil⟩
  · exact ⟨(h.children.subset (between_subset _ _ _)).oneLine_joinedText,
      (h.children.subset (between_subset _ _ _)).oneLine_joinedText⟩

theorem oneLine_connectionBody {nodes : List Node} (h : AllStraight nodes) (level column : Int) :
    OneLine (connectionBody level column nodes) := by
  unfold connectionBody
  split
  · next item =>
      obtain ⟨hname, hvalue⟩ := oneLine_namedParts (h item List.mem_cons_self)
      split
      · exact Layout.oneLine_connection hname hvalue oneLine_nil _ _
      · exact h.oneLine_joinedText
  · exact h.oneLine_joinedText

/-- A connection is the same at every level, whether it is written in columns or not. -/
theorem connectionBody_atLevel {level : Int} (h : 1 ≤ level) (column : Int) (nodes : List Node) :
    connectionBody (level + 1) column nodes = connectionBody 2 column nodes := by
  unfold connectionBody
  split
  · split
    · exact (Layout.connection_atLevel h _ _ _ _).trans
        (Layout.connection_atLevel (Int.le_refl 1) _ _ _ _).symm
    · rfl
  · rfl

/-- The lines of connections are a level deeper than the line above and the one below. -/
theorem exists_connectionLines_nests {groups : List Group} (h : GroupsStraight groups)
    (column : Int) :
    ∃ lines : Int → Text, (Nests fun level => "\n" ++ lines level ++ indentFor level) ∧
      ∀ level, 1 ≤ level → connectionLines (level + 1) column groups = pure (lines level) := by
  induction groups with
  | nil =>
      exact ⟨fun _ => [], (Nests.feed 0).congr fun level _ => by simp, fun level _ => rfl⟩
  | cons group rest ih =>
      obtain ⟨hgroup, hrest⟩ := List.forall_mem_cons.1 h
      obtain ⟨lines, hlines, hwritten⟩ := ih hrest
      obtain ⟨_ | ⟨item, others⟩, separator⟩ := group
      · exact ⟨lines, hlines, hwritten⟩
      have hitems : AllStraight (item :: others) :=
        hgroup.subset (List.subset_append_left _ separator.toList)
      let comma : Text := if separator.isSome then "," else ""
      have hcomma : OneLine comma := by
        unfold comma
        split <;> decide
      have hbody := oneLine_append.2 ⟨oneLine_connectionBody hitems 2 column, hcomma⟩
      refine ⟨fun level => indentFor (level + 1) ++
          (connectionBody 2 column (item :: others) ++ comma) ++ "\n" ++ lines level,
        ((Nests.feed 1).append ((Nests.const hbody).append hlines)).congr fun level _ => ?_,
        fun level hlevel => ?_⟩
      · simp only [List.append_assoc, Int.natCast_one]
      · rw [connectionLines]
        simp only [endOfLine_plain hgroup.plain, hwritten level hlevel, connectionBody_append,
          connectionBody_atLevel hlevel, pure_bind, List.append_nil]
        rfl

/-- The lines of connections between parentheses. -/
theorem exists_linesBetween_nests {node : Node} (h : node.Straight) (list : Kind)
    (start stop : Nat) (column : Int) {front : Text} (hfront : OneLine front) :
    ∃ lines : Int → Text,
      (Nests fun level => front ++ "\n" ++ lines level ++ indentFor level ++ ")") ∧
      ∀ level, 1 ≤ level → connectionLines (level + 1) column
        (groups "," (flattenLists list (between node.children start stop))) =
          pure (lines level) := by
  have hinside : AllStraight (flattenLists list (between node.children start stop)) :=
    (h.children.subset (between_subset _ _ _)).spliced (·.kind? = some list)
  obtain ⟨lines, hlines, hwritten⟩ := exists_connectionLines_nests (hinside.groups ",") column
  have hclosing : OneLine ")" := by decide
  refine ⟨lines, (((Nests.const hfront).append hlines).append (Nests.const hclosing)).congr
    fun level _ => ?_, hwritten⟩
  simp only [List.append_assoc]

/-! ## Parameter values and instances -/

/-- A part of a line nests, and the nodes whose comments are pending are the same at every
level. -/
def NestsPart (m : Int → Render (Text × List Node)) : Prop :=
  ∃ t pending, Nests t ∧ AllPlain pending ∧ ∀ level, 1 ≤ level → m level = pure (t level, pending)

section
variable {node : Node} (h : node.Straight) {pending : List Node} (hpending : AllPlain pending)
include h hpending

theorem nestsPart_parameterBlock :
    NestsPart fun level => parameterBlock columns node level pending := by
  have hhash : OneLine "#" := by decide
  have hfront : OneLine "#(" := by decide
  have hsingle : AllPlain [node] := allWithin_cons.2 ⟨h.plain, allWithin_nil⟩
  unfold parameterBlock
  dsimp only
  cases hplace : indexOf? "(" node.children with
  | none =>
      exact ⟨_, _, Nests.const (oneLine_append.2 ⟨hhash,
          (h.children.subset (List.drop_subset 1 _)).oneLine_joinedText⟩),
        allWithin_append.2 ⟨hpending, hsingle⟩, fun level _ => rfl⟩
  | some opening =>
      obtain ⟨lines, hlines, hwritten⟩ := exists_linesBetween_nests h .listOfParameterAssignments
        (opening + 1) (node.children.length - 1) (columns .parameterValue) hfront
      have hcomments : AllPlain (pending ++ node.children.take (opening + 1)) :=
        allWithin_append.2 ⟨hpending, h.children.plain.subset (List.take_subset _ _)⟩
      refine ⟨_, _, hlines, h.children.plain.getLast?, fun level hlevel => ?_⟩
      simp only [endOfLine_plain hcomments, hwritten level hlevel, pure_bind, List.append_nil]

theorem nestsPart_instanceBlock :
    NestsPart fun level => instanceBlock columns node level pending := by
  have hempty : OneLine " ()" := by decide
  have hparen : OneLine " (" := by decide
  have hsingle : AllPlain [node] := allWithin_cons.2 ⟨h.plain, allWithin_nil⟩
  unfold instanceBlock
  dsimp only
  cases hplace : indexOf? "(" node.children with
  | none =>
      exact ⟨_, _, Nests.const h.children.oneLine_joinedText,
        allWithin_append.2 ⟨hpending, hsingle⟩, fun level _ => rfl⟩
  | some opening =>
      have hname : OneLine (joinedText (node.children.take opening)) :=
        (h.children.subset (List.take_subset _ _)).oneLine_joinedText
      dsimp only
      split
      · exact ⟨_, _, Nests.const (oneLine_append.2 ⟨hname, hempty⟩),
          allWithin_append.2 ⟨hpending, h.children.plain⟩, fun level _ => rfl⟩
      · obtain ⟨lines, hlines, hwritten⟩ := exists_linesBetween_nests h .listOfPortConnections
          (opening + 1) (node.children.length - 1) (columns .portValue)
          (oneLine_append.2 ⟨hname, hparen⟩)
        have hcomments : AllPlain (pending ++ node.children.take (opening + 1)) :=
          allWithin_append.2 ⟨hpending, h.children.plain.subset (List.take_subset _ _)⟩
        refine ⟨_, _, hlines, h.children.plain.getLast?, fun level hlevel => ?_⟩
        simp only [endOfLine_plain hcomments, hwritten level hlevel, pure_bind, List.append_nil]

end

/-! ## Instances one behind the other -/

/-- An instance that has been read with the comma behind it. -/
def Separated (entry : Node × Option Node) : Prop :=
  entry.1.Straight ∧ ∃ comma, entry.2 = some comma ∧ comma.Plain

/-- Instances that have been read: each has its comma, but the last one if it is still open. -/
inductive Parted : Bool → List (Node × Option Node) → Prop where
  | closed {front} : (∀ entry ∈ front, Separated entry) → Parted false front
  | opened {front node} : (∀ entry ∈ front, Separated entry) → node.Straight →
      Parted true (front ++ [(node, none)])

/-- A comma closes the instance in front of it. -/
theorem Parted.setComma {isOpen : Bool} {instances : List (Node × Option Node)}
    (h : Parted isOpen instances) {comma : Node} (hcomma : comma.Plain) :
    Parted false (setComma comma instances) := by
  unfold Render.setComma
  cases h with
  | closed hfront =>
      split
      · next node found hlast =>
          have hnode := (hfront _ (List.mem_of_getLast? hlast)).1
          refine .closed (List.forall_mem_append.2 ⟨fun entry hentry =>
            hfront entry ((List.dropLast_sublist _).subset hentry), ?_⟩)
          exact List.forall_mem_singleton.2 ⟨hnode, comma, rfl, hcomma⟩
      · exact .closed hfront
  | opened hfront hnode =>
      rw [List.getLast?_concat, List.dropLast_concat]
      exact .closed (List.forall_mem_append.2
        ⟨hfront, List.forall_mem_singleton.2 ⟨hnode, comma, rfl, hcomma⟩⟩)

/-- Only an open instance has no comma behind it. -/
theorem Parted.isOpen_of_nil {isOpen : Bool} (h : Parted isOpen []) : isOpen = false := by
  generalize hinstances : [] = instances at h
  cases h with
  | closed => rfl
  | opened => simp at hinstances

/-- What has been read of an instantiation, at whatever level. -/
structure Reading where
  text : Int → Text
  pending : List Node
  instances : List (Node × Option Node) := []
  /-- The last instance has no comma yet. -/
  isOpen : Bool := false

namespace Reading

/-- What has been read at a level. -/
def atLevel (reading : Reading) (level : Int) : Instantiation where
  text := reading.text level
  pending := reading.pending
  instances := reading.instances

/-- The text that has been read nests, and what has been read fits the nodes that are left: the
commas of the instances are there, or follow. -/
structure Fits (reading : Reading) (nodes : List Node) : Prop where
  straight : AllStraight nodes
  nests : Nests reading.text
  pending : AllPlain reading.pending
  parted : Parted reading.isOpen reading.instances
  apart : instancesApart reading.isOpen nodes
  last : reading.instances = [] ∨ reading.isOpen ∨ nodes.any isInstance

/-- Reading one node leads to something that fits the rest, at every level. -/
def Steps (reading : Reading) (node : Node) (rest : List Node) : Prop :=
  ∃ next : Reading, next.Fits rest ∧ ∀ level, 1 ≤ level →
    readInstantiation columns level (reading.atLevel level) (node :: rest) =
      readInstantiation columns level (next.atLevel level) rest

section
variable {reading : Reading} {node : Node} {rest : List Node} (h : reading.Fits (node :: rest))
include h

/-- An instance waits for its comma. -/
theorem steps_instance (hinstance : node.isInstance) : reading.Steps columns node rest := by
  have hkind : node.kind? = some .moduleInstance := of_decide_eq_true hinstance
  obtain ⟨hnode, hrest⟩ := List.forall_mem_cons.1 h.straight
  obtain ⟨hclosed, hapart⟩ : reading.isOpen = false ∧ instancesApart true rest := by
    simpa [instancesApart, hinstance] using h.apart
  have hparted : Parted true (reading.instances ++ [(node, none)]) := by
    have hread := h.parted
    rw [hclosed] at hread
    cases hread with
    | closed hfront => exact .opened hfront hnode
  refine ⟨{ reading with instances := reading.instances ++ [(node, none)], isOpen := true },
    ⟨hrest, h.nests, h.pending, hparted, hapart, .inr (.inl rfl)⟩, fun level _ => ?_⟩
  rw [readInstantiation, hkind]
  rfl

/-- More text, and nothing else. -/
theorem Fits.addText (hinstance : node.isInstance = false)
    (hapart : instancesApart reading.isOpen rest) {u : Int → Text} (hu : Nests u)
    {pending : List Node} (hpending : AllPlain pending) :
    Fits { reading with text := fun level => reading.text level ++ " " ++ u level, pending }
      rest where
  straight := (List.forall_mem_cons.1 h.straight).2
  nests := (h.nests.append (Nests.const oneLine_space)).append hu
  pending := hpending
  parted := h.parted
  apart := hapart
  last := by simpa [hinstance] using h.last

/-- Parameter values are more text. -/
theorem steps_parameterBlock (hkind : node.kind? = some .parameterValueAssignment) :
    reading.Steps columns node rest := by
  have hinstance : node.isInstance = false := by simp [isInstance, hkind]
  have hapart : instancesApart reading.isOpen rest := by
    simpa [instancesApart, hinstance, isSeparator, hkind] using h.apart
  obtain ⟨u, pending, hu, hpending, hblock⟩ :=
    nestsPart_parameterBlock columns (h.straight node List.mem_cons_self) h.pending
  refine ⟨_, h.addText hinstance hapart hu hpending, fun level hlevel => ?_⟩
  rw [readInstantiation, hkind]
  simp only [atLevel, hblock level hlevel, pure_bind]

variable (hinstance : node.isInstance = false)
  (hkind : node.kind? ≠ some .parameterValueAssignment)
include hinstance hkind

omit h in
/-- Any other node is the comma of an instance, or more text. -/
theorem readInstantiation_other (level : Int) (done : Instantiation) :
    readInstantiation columns level done (node :: rest) =
      if node.isLexeme "," && !done.instances.isEmpty then
        readInstantiation columns level
          { done with instances := setComma node done.instances } rest
      else
        readInstantiation columns level
          { done with
            text := done.text ++ " " ++ node.text
            pending := done.pending ++ [node] } rest := by
  rw [readInstantiation]
  split
  · next hfound => exact absurd hfound hkind
  · next hfound => exact absurd hfound (of_decide_eq_false hinstance)
  · rfl

/-- Text that is written beside the instances fits at every level. -/
theorem steps_text (hapart : instancesApart reading.isOpen rest)
    (htext : node.isLexeme "," = false ∨ reading.instances = []) :
    reading.Steps columns node rest := by
  have hnode := h.straight node List.mem_cons_self
  have hpending : AllPlain (reading.pending ++ [node]) :=
    allWithin_append.2 ⟨h.pending, allWithin_cons.2 ⟨hnode.plain, allWithin_nil⟩⟩
  refine ⟨_, h.addText hinstance hapart (Nests.const hnode.oneLine_text) hpending,
    fun level _ => ?_⟩
  rw [readInstantiation_other columns hinstance hkind, if_neg]
  · rfl
  · rcases htext with hcomma | hnone
    · simp [hcomma, -String.reduceToList]
    · simp [atLevel, hnone]

/-- The last instance gets its comma. -/
theorem steps_comma (hcomma : node.isLexeme ",") (hne : reading.instances ≠ [])
    (hafter : rest.any isInstance) (hapart : instancesApart false rest) :
    reading.Steps columns node rest := by
  obtain ⟨hnode, hrest⟩ := List.forall_mem_cons.1 h.straight
  refine ⟨{ reading with instances := setComma node reading.instances, isOpen := false },
    ⟨hrest, h.nests, h.pending, h.parted.setComma hnode.plain, hapart, .inr (.inr hafter)⟩,
    fun level _ => ?_⟩
  rw [readInstantiation_other columns hinstance hkind, if_pos]
  · rfl
  · simp [atLevel, hcomma, hne, -String.reduceToList]

/-- A node that is no instance fits at every level, as a comma or as text. -/
theorem steps_other : reading.Steps columns node rest := by
  have hseparator : node.isSeparator = node.isLexeme "," := by simp [isSeparator, hkind]
  have hapart := h.apart
  simp only [instancesApart, hinstance, hseparator, Bool.false_eq_true, if_false] at hapart
  cases hcomma : node.isLexeme "," with
  | false =>
      simp only [hcomma, Bool.false_eq_true, if_false] at hapart
      exact steps_text columns h hinstance hkind hapart (.inl hcomma)
  | true =>
      simp only [hcomma, if_true, Bool.and_eq_true, Bool.or_eq_true, Bool.not_eq_true'] at hapart
      obtain ⟨hafter, hapart⟩ := hapart
      by_cases hnone : reading.instances = []
      · have hclosed : reading.isOpen = false := (hnone ▸ h.parted).isOpen_of_nil
        exact steps_text columns h hinstance hkind (by rwa [hclosed]) (.inr hnone)
      · refine steps_comma columns h hinstance hkind hcomma hnone ?_ hapart
        rcases hafter with hclosed | hany
        · simpa [hnone, hclosed, hinstance] using h.last
        · exact hany

end

/-- Whatever fits is read the same way at every level. -/
theorem step {reading : Reading} {node : Node} {rest : List Node}
    (h : reading.Fits (node :: rest)) : reading.Steps columns node rest := by
  cases hinstance : node.isInstance with
  | true => exact steps_instance columns h hinstance
  | false =>
      by_cases hkind : node.kind? = some .parameterValueAssignment
      · exact steps_parameterBlock columns h hkind
      · exact steps_other columns h hinstance hkind

/-- Reading all nodes keeps what has been read fitting. -/
theorem run {reading : Reading} {nodes : List Node} (h : reading.Fits nodes) :
    ∃ last : Reading, last.Fits [] ∧ ∀ level, 1 ≤ level →
      readInstantiation columns level (reading.atLevel level) nodes =
        pure (last.atLevel level) := by
  induction nodes generalizing reading with
  | nil => exact ⟨reading, h, fun level _ => rfl⟩
  | cons node rest ih =>
      obtain ⟨next, hnext, hstep⟩ := step columns h
      obtain ⟨last, hlast, hread⟩ := ih hnext
      exact ⟨last, hlast, fun level hlevel => (hstep level hlevel).trans (hread level hlevel)⟩

end Reading

/-- Instances nest behind the gap in front of the first one. -/
theorem exists_instanceLines_nests {front : List (Node × Option Node)}
    (hfront : ∀ entry ∈ front, Separated entry) {node : Node} (hnode : node.Straight)
    {pending : List Node} (hpending : AllPlain pending) :
    ∃ u pending', Nests u ∧ AllPlain pending' ∧ ∀ isFirst level, 1 ≤ level →
      instanceLines columns level isFirst pending (front ++ [(node, none)]) =
        pure ((if isFirst then " " else indentFor level : Text) ++ u level, pending') := by
  induction front generalizing pending with
  | nil =>
      obtain ⟨u, behind, hu, hbehind, hblock⟩ := nestsPart_instanceBlock columns hnode hpending
      refine ⟨u, behind, hu, hbehind, fun isFirst level hlevel => ?_⟩
      rw [List.nil_append, instanceLines]
      simp only [hblock level hlevel, instanceLines, pure_bind, List.append_nil]
  | cons entry rest ih =>
      obtain ⟨⟨hentry, comma, hcomma, hplain⟩, hrest⟩ := List.forall_mem_cons.1 hfront
      obtain ⟨first, _⟩ := entry
      obtain rfl := hcomma
      obtain ⟨u, behind, hu, hbehind, hblock⟩ := nestsPart_instanceBlock columns hentry hpending
      obtain ⟨v, last, hv, hlast, hlines⟩ := ih hrest allWithin_nil
      have hcomments : AllPlain (behind ++ [comma]) :=
        allWithin_append.2 ⟨hbehind, allWithin_cons.2 ⟨hplain, allWithin_nil⟩⟩
      refine ⟨fun level => u level ++ "," ++ "\n" ++ (indentFor level ++ v level), last,
        ((hu.append (Nests.const oneLine_comma)).append ((Nests.feed 0).append hv)).congr
          fun level _ => ?_, hlast, fun isFirst level hlevel => ?_⟩
      · simp only [List.append_assoc, Int.natCast_zero, Int.add_zero]
      · rw [List.cons_append, instanceLines]
        simp only [hblock level hlevel, hlines false level hlevel, endOfLine_plain hcomments,
          pure_bind, List.nil_append, List.append_assoc, Bool.false_eq_true, if_false]

theorem uniform_moduleInstantiation {node : Node} (h : node.Straight) {given : Option Node}
    (hgiven : EndsStraight given)
    (hapart : instancesApart false ((splitTerminator node.children none).1.drop 1)) :
    Uniform fun level => moduleInstantiation columns node level given := by
  obtain ⟨hchildren, hend⟩ := h.children.splitTerminator hgiven
  -- The terminator that is handed in does not change which children are read.
  have hsame : (splitTerminator node.children none).1 =
      (splitTerminator node.children given).1 := by
    unfold splitTerminator
    split
    · split <;> rfl
    · rfl
  rw [hsame] at hapart
  unfold moduleInstantiation
  dsimp only
  generalize splitTerminator node.children given = split at hchildren hend hapart
  obtain ⟨children, terminator⟩ := split
  cases children with
  | nil => exact uniform_woven h
  | cons name others =>
      obtain ⟨hname, hothers⟩ := List.forall_mem_cons.1 hchildren
      have hfits : Reading.Fits { text := fun _ => name.text, pending := [name] } others :=
        { straight := hothers
          nests := Nests.const hname.oneLine_text
          pending := allWithin_cons.2 ⟨hname.plain, allWithin_nil⟩
          parted := .closed (by simp)
          apart := hapart
          last := .inl rfl }
      obtain ⟨last, hlast, hread⟩ := Reading.run columns hfits
      obtain ⟨v, behind, hv, hbehind, hlines⟩ : ∃ v behind, Nests v ∧ AllPlain behind ∧
          ∀ level, 1 ≤ level → instanceLines columns level true last.pending last.instances =
            pure (v level, behind) := by
        rcases hlast.last with hnone | hopen | hmore
        · refine ⟨fun _ => [], last.pending, Nests.const oneLine_nil, hlast.pending,
            fun level _ => ?_⟩
          rw [hnone]
          rfl
        · have hparted := hlast.parted
          rw [hopen] at hparted
          generalize last.instances = instances at hparted
          cases hparted with
          | opened hfront hnode =>
              obtain ⟨u, behind, hu, hbehind, hlines⟩ :=
                exists_instanceLines_nests columns hfront hnode hlast.pending
              exact ⟨_, behind, (Nests.const oneLine_space).append hu, hbehind,
                fun level hlevel => hlines true level hlevel⟩
        · cases hmore
      have hcomments : AllPlain (behind ++ terminator.toList) :=
        allWithin_append.2 ⟨hbehind, allWithin_toList.2 hend.plain⟩
      refine ((hlast.nests.append hv).append
        (Nests.const hend.oneLine_terminatorText)).uniform fun level hlevel => ?_
      have hparts := hread level hlevel
      simp only [Reading.atLevel] at hparts
      simp only [hparts, hlines level hlevel, endOfLine_plain hcomments, pure_bind, List.append_nil]

end Render

open Render

namespace Node

/-- A construct whose lines follow their level is written by a renderer that does so. -/
theorem FollowsLevel.exists_phrase (columns : Columns) {node : Node} (h : FollowsLevel node)
    (hnode : node.Straight) {given : Option Node}
    (hgiven : EndsStraight given) (format : Formatter) :
    ∃ kind, node.kind? = some kind ∧ kind.writesTerminator ∧ kind.indentsItself = false ∧
      Uniform fun level => phrase columns format node level given := by
  cases h with
  | port hclass =>
      obtain ⟨kind, hkind, hclass⟩ := (Option.any_eq_true _ _).1 hclass
      refine ⟨kind, hkind, by simp [Kind.writesTerminator, hclass], ?_, ?_⟩
      · cases kind <;> first | exact absurd hclass Bool.false_ne_true | rfl
      · simp only [Declares.phrase_port columns hkind hclass]
        exact uniform_portDeclaration columns hnode hgiven
  | signal hclass =>
      obtain ⟨kind, hkind, hclass⟩ := (Option.any_eq_true _ _).1 hclass
      refine ⟨kind, hkind, by simp [Kind.writesTerminator, hclass], ?_, ?_⟩
      · cases kind <;> first | exact absurd hclass Bool.false_ne_true | rfl
      · simp only [Declares.phrase_signal columns hkind hclass]
        exact uniform_signalDeclaration columns hnode hgiven
  | parameter hclass =>
      obtain ⟨kind, hkind, hclass⟩ := (Option.any_eq_true _ _).1 hclass
      refine ⟨kind, hkind, by simp [Kind.writesTerminator, hclass], ?_, ?_⟩
      · cases kind <;> first | exact absurd hclass Bool.false_ne_true | rfl
      · simp only [phrase_parameters hkind hclass]
        exact uniform_parameterDeclaration columns hnode hgiven
  | assign hkind =>
      refine ⟨_, hkind, rfl, rfl, ?_⟩
      simp only [phrase, hkind]
      exact uniform_continuousAssign columns hnode hgiven
  | instantiation hkind hapart =>
      refine ⟨_, hkind, rfl, rfl, ?_⟩
      simp only [phrase, hkind]
      exact uniform_moduleInstantiation columns hnode hgiven hapart

/-- Deeper nesting only shifts: a declaration, a continuous assignment or an instantiation without
comments is written one level deeper with four more spaces in front of every line that is not
empty, whatever its columns are. -/
theorem format_deeper (columns : Columns) {node : Node} {given : Option Node}
    (h : FollowsLevel node.unwrap.inner) (hnode : node.comments = [])
    (hgiven : ∀ token ∈ given, token.comments = [])
    (hfeed : ∀ leaf ∈ node.leaves, .char '\n' ∉ leaf.lexeme)
    (hend : ∀ token ∈ given, .char '\n' ∉ token.lexeme) {level : Int} (hlevel : 1 ≤ level) :
    format columns false node (level + 1) given =
      deepened <$> format columns false node level given := by
  have hplain : node.Plain := plain_iff.2 hnode
  have hgivenPlain : ∀ token ∈ given, token.Plain :=
    fun token hmem => plain_iff.2 (hgiven token hmem)
  obtain ⟨hinner, hterminator⟩ := Straight.unwrap ⟨hplain, hfeed⟩
  have hboth : EndsStraight (given <|> node.unwrap.terminator) := by
    cases given with
    | none => exact hterminator
    | some token => exact fun token hmem => ⟨hgivenPlain token hmem, hend token hmem⟩
  obtain ⟨kind, hkind, hwrites, hindents, huniform⟩ :=
    h.exists_phrase columns hinner hboth (formatAt columns node.height)
  -- A phrase that fails does so at every level alike.
  rcases huniform with ⟨t, hnests, hphrase⟩ | ⟨e, hphrase⟩
  · have hitself : node.unwrap.inner.is Kind.indentsItself = false := by
      rw [is, hkind]
      exact hindents
    rw [format_of_phrase columns hplain hkind hwrites hgivenPlain false (hphrase level hlevel),
      format_of_phrase columns hplain hkind hwrites hgivenPlain false
        (hphrase (level + 1) (by omega)), map_pure, hnests.placed hitself hlevel]
  · have hfail : ∀ level, format columns false node level given = throw e := by
      intro level
      have hthrow := hphrase level
      dsimp only at hthrow
      rw [format, formatWith_plain columns _ false hplain level hgivenPlain, hthrow]
      rfl
    rw [hfail, hfail]
    rfl

theorem format_twoInstances_deeper :
    let given := some (wordOf "SEMI" ";")
    ∃ text, format Columns.standard false twoInstances 1 given = pure text ∧
      format Columns.standard false twoInstances 2 given = pure (deepened text) ∧
      List.splitOn (.char '\n') (deepened text) =
        (["        sub #(", "            .W" ++ spaces 50 ++ "(n)", "        ) u (",
          "            .a" ++ spaces 50 ++ "(x),", "            y", "        ),", "        v ();",
          ""] : List Text) := by
  intro given
  have hgiven : ∀ token ∈ given, token.comments = [] ∧ .char '\n' ∉ token.lexeme := by
    intro token hmem
    obtain rfl := Option.some.inj hmem
    decide
  have hdeeper := @format_deeper Columns.standard twoInstances given
    (.instantiation rfl (by decide +kernel)) rfl (fun token hmem => (hgiven token hmem).1)
    (by decide +kernel) (fun token hmem => (hgiven token hmem).2) 1 (Int.le_refl 1)
  exact ⟨_, rfl, hdeeper, by decide +kernel⟩

end Node
end VerilogLayout

import VerilogLayout.Proofs.Origin.Declaration

/-!
# Instances draw on the stock

A part of an instantiation yields its text and the nodes whose comments are pending: the text is
drawn from the stock and the nodes are in it, `DrawsPart`. What has been read so far is carried
along as `Instantiation.Stocked`.
-/

namespace VerilogLayout.Render

open Node
open Text (Drawn drawn_nil drawn_append drawn_added drawn_space drawn_indentFor)

variable {stock : Text}

/-! ## Connections -/

/-- The comma behind an entry that has a separator. -/
theorem drawn_comma (separator : Option Node) :
    Drawn stock (if separator.isSome then "," else "") := by
  split
  · exact drawn_added (by decide)
  · exact drawn_nil

theorem drawn_namedParts {node : Node} (h : node.Stocked stock) :
    Drawn stock (namedParts node).1 ∧ Drawn stock (namedParts node).2 := by
  unfold namedParts
  dsimp only
  split
  · exact ⟨(h.children.subset (List.drop_subset _ _)).drawn_joinedText, drawn_nil⟩
  · exact ⟨(h.children.subset (between_subset _ _ _)).drawn_joinedText,
      (h.children.subset (between_subset _ _ _)).drawn_joinedText⟩

theorem draws_connectionLines {groups : List Group} (h : GroupsStocked stock groups) (level : Int)
    (column : Int) : Draws stock (connectionLines level column groups) := by
  induction groups with
  | nil => exact .pure drawn_nil
  | cons group rest ih =>
      obtain ⟨⟨hitems, hseparator⟩, hrest⟩ := List.forall_mem_cons.1 h
      unfold connectionLines
      split
      · exact ih hrest
      · next item others hcons =>
          have hitem := hitems item (by rw [hcons]; exact List.mem_cons_self)
          refine (draws_endOfLine (hitems.append hseparator.toList) level).bind
            fun comments hcomments => ?_
          refine (ih hrest).map fun lines hlines => ?_
          simp only [drawn_append, drawn_indentFor, true_and]
          refine ⟨⟨⟨?_, hcomments⟩, drawn_added (by decide)⟩, hlines⟩
          split
          · obtain ⟨hname, hvalue⟩ := drawn_namedParts hitem
            exact Layout.drawn_connection _ hname hvalue (drawn_comma _) _
          · exact drawn_append.2 ⟨hitems.drawn_joinedText, drawn_comma _⟩

/-- Some lists replaced by their children. -/
theorem stocked_flattenLists {nodes : List Node} (h : AllStocked stock nodes) (list : Kind) :
    AllStocked stock (flattenLists list nodes) :=
  h.spliced (·.kind? = some list)

theorem stocked_getLast? {nodes : List Node} (h : AllStocked stock nodes) :
    AllStocked stock nodes.getLast?.toList :=
  fun node hnode => h node (List.mem_of_getLast? (Option.mem_toList.1 hnode))

/-! ## The parts of an instantiation -/

/-- A renderer of a part of a line: the text is drawn from the stock, and so is what the nodes
bring along whose comments are pending. -/
def DrawsPart (stock : Text) (m : Render (Text × List Node)) : Prop :=
  Yields m fun part => Drawn stock part.1 ∧ AllStocked stock part.2

variable (columns : Columns)

/-- The connections between parentheses, behind the comments that are pending in front of them. -/
theorem draws_linesBetween {node : Node} (h : node.Stocked stock) (level : Int)
    {pending : List Node} (hpending : AllStocked stock pending) (list : Kind) (start : Nat)
    (column : Int) {front : Text} (hfront : Drawn stock front) :
    DrawsPart stock (do
      let comments ← endOfLine level (pending ++ node.children.take start)
      let lines ← connectionLines (level + 1) column
        (Node.groups "," (flattenLists list (between node.children start
          (node.children.length - 1))))
      pure (front ++ comments ++ "\n" ++ lines ++ indentFor level ++ ")",
        node.children.getLast?.toList)) := by
  have hinner := stocked_flattenLists (h.children.subset (between_subset _ start
    (node.children.length - 1))) list
  refine (draws_endOfLine (hpending.append (h.children.subset (List.take_subset _ _)))
    level).bind fun comments hcomments => ?_
  refine (draws_connectionLines (hinner.groups "," (by decide)) _ _).map
    fun lines hlines => ⟨?_, stocked_getLast? h.children⟩
  simp only [drawn_append, drawn_indentFor, and_true]
  exact ⟨⟨⟨⟨hfront, hcomments⟩, drawn_added (by decide)⟩, hlines⟩, drawn_added (by decide)⟩

theorem draws_parameterBlock {node : Node} (h : node.Stocked stock) (level : Int)
    {pending : List Node} (hpending : AllStocked stock pending) :
    DrawsPart stock (parameterBlock columns node level pending) := by
  unfold parameterBlock
  dsimp only
  split
  · refine .pure ⟨drawn_append.2 ⟨drawn_added (by decide), ?_⟩, ?_⟩
    · exact (h.children.subset (List.drop_subset 1 _)).drawn_joinedText
    · exact hpending.append (List.forall_mem_singleton.2 h)
  · exact draws_linesBetween h level hpending _ _ _ (drawn_added (by decide))

theorem draws_instanceBlock {node : Node} (h : node.Stocked stock) (level : Int)
    {pending : List Node} (hpending : AllStocked stock pending) :
    DrawsPart stock (instanceBlock columns node level pending) := by
  unfold instanceBlock
  dsimp only
  split
  · exact .pure ⟨h.children.drawn_joinedText, hpending.append (List.forall_mem_singleton.2 h)⟩
  · next opening _ =>
      have hname := (h.children.subset (List.take_subset opening _)).drawn_joinedText
      split
      · exact .pure ⟨drawn_append.2 ⟨hname, drawn_added (by decide)⟩, hpending.append h.children⟩
      · exact draws_linesBetween h level hpending _ _ _
          (drawn_append.2 ⟨hname, drawn_added (by decide)⟩)

/-- The stock has what instances and their commas bring along. -/
def InstancesStocked (stock : Text) (instances : List (Node × Option Node)) : Prop :=
  ∀ entry ∈ instances, AllStocked stock (entry.1 :: entry.2.toList)

theorem InstancesStocked.setComma {instances : List (Node × Option Node)}
    (h : InstancesStocked stock instances) {comma : Node} (hcomma : comma.Stocked stock) :
    InstancesStocked stock (setComma comma instances) := by
  unfold Render.setComma
  split
  · next node found hlast =>
      have hnode := h _ (List.mem_of_getLast? hlast) node List.mem_cons_self
      refine List.forall_mem_append.2
        ⟨fun entry hentry => h entry ((List.dropLast_sublist _).subset hentry), ?_⟩
      exact List.forall_mem_singleton.2
        (List.forall_mem_cons.2 ⟨hnode, List.forall_mem_singleton.2 hcomma⟩)
  · exact h

/-- What has been read of an instantiation. -/
structure Instantiation.Stocked (stock : Text) (done : Instantiation) : Prop where
  text : Drawn stock done.text
  pending : AllStocked stock done.pending
  instances : InstancesStocked stock done.instances

/-- Each child adds to the text, to the pending nodes or to the instances. -/
theorem yields_readInstantiation {nodes : List Node} (h : AllStocked stock nodes) (level : Int)
    {done : Instantiation} (hdone : done.Stocked stock) :
    Yields (readInstantiation columns level done nodes) (Instantiation.Stocked stock) := by
  induction nodes generalizing done with
  | nil => exact .pure hdone
  | cons node rest ih =>
      obtain ⟨hnode, hrest⟩ := List.forall_mem_cons.1 h
      have hsingle : AllStocked stock [node] := List.forall_mem_singleton.2 hnode
      unfold readInstantiation
      split
      · refine (draws_parameterBlock columns hnode level hdone.pending).bind fun part hpart => ?_
        exact ih hrest ⟨drawn_append.2 ⟨drawn_append.2 ⟨hdone.text, drawn_space⟩, hpart.1⟩,
          hpart.2, hdone.instances⟩
      · refine ih hrest ⟨hdone.text, hdone.pending, ?_⟩
        exact List.forall_mem_append.2 ⟨hdone.instances, List.forall_mem_singleton.2 hsingle⟩
      · split
        · exact ih hrest ⟨hdone.text, hdone.pending, hdone.instances.setComma hnode⟩
        · exact ih hrest ⟨drawn_append.2 ⟨drawn_append.2 ⟨hdone.text, drawn_space⟩,
            hnode.drawn_text⟩, hdone.pending.append hsingle, hdone.instances⟩

theorem draws_instanceLines {instances : List (Node × Option Node)}
    (h : InstancesStocked stock instances) (level : Int) (isFirst : Bool) {pending : List Node}
    (hpending : AllStocked stock pending) :
    DrawsPart stock (instanceLines columns level isFirst pending instances) := by
  induction instances generalizing isFirst pending with
  | nil => exact .pure ⟨drawn_nil, hpending⟩
  | cons entry rest ih =>
      obtain ⟨node, comma?⟩ := entry
      obtain ⟨hentry, hrest⟩ := List.forall_mem_cons.1 h
      obtain ⟨hnode, hcomma⟩ := List.forall_mem_cons.1 hentry
      have hgap : Drawn stock (if isFirst then " " else indentFor level) := by
        split
        · exact drawn_space
        · exact drawn_indentFor level
      unfold instanceLines
      refine (draws_instanceBlock columns hnode level hpending).bind fun part hpart => ?_
      obtain ⟨body, waiting⟩ := part
      obtain ⟨hbody, hwaiting⟩ := hpart
      -- A comma ends the line with the comments that wait; without one they wait on.
      cases comma? with
      | some comma =>
          refine (draws_endOfLine (hwaiting.append hcomma) level).bind fun comments hcomments => ?_
          refine (ih hrest false (List.forall_mem_nil _)).map fun lines hlines => ⟨?_, hlines.2⟩
          simp only [drawn_append]
          exact ⟨⟨⟨⟨⟨hgap, hbody⟩, drawn_added (by decide)⟩, hcomments⟩, drawn_added (by decide)⟩,
            hlines.1⟩
      | none =>
          exact (ih hrest false hwaiting).map fun lines hlines =>
            ⟨drawn_append.2 ⟨drawn_append.2 ⟨hgap, hbody⟩, hlines.1⟩, hlines.2⟩

theorem draws_moduleInstantiation {node : Node} (h : node.Stocked stock) {given : Option Node}
    (hgiven : EndsStocked stock given) (level : Int) :
    Draws stock (moduleInstantiation columns node level given) := by
  obtain ⟨hchildren, hend⟩ := h.children.splitTerminator hgiven
  unfold moduleInstantiation
  dsimp only
  generalize Node.splitTerminator node.children given = split at hchildren hend
  obtain ⟨children, terminator⟩ := split
  cases children with
  | nil => exact draws_woven h
  | cons name others =>
      obtain ⟨hname, hothers⟩ := List.forall_mem_cons.1 hchildren
      have hfirst : Instantiation.Stocked stock { text := name.text, pending := [name] } :=
        ⟨hname.drawn_text, List.forall_mem_singleton.2 hname, List.forall_mem_nil _⟩
      refine (yields_readInstantiation columns hothers level hfirst).bind fun parts hparts => ?_
      refine (draws_instanceLines columns hparts.instances level true hparts.pending).bind
        fun lines hlines => ?_
      refine (draws_endOfLine (hlines.2.append hend.toList) level).map fun comments hcomments => ?_
      simp only [drawn_append]
      exact ⟨⟨⟨hparts.text, hlines.1⟩, hend.drawn_terminatorText⟩, hcomments⟩

end VerilogLayout.Render

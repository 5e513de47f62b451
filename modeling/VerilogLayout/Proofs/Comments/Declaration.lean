import VerilogLayout.Proofs.Comments.Standing
import VerilogLayout.Render.Declaration
import VerilogLayout.Render.Instance

/-!
# Comments of declarations and instances

The renderers of this module never call another one. They take their comments at the ends of
lines, so each proof says which nodes a line takes and that they belong to the declaration. The
nodes whose comments wait for the next line are `pending` and stay among those of the tree. The
last line is left open, and the others are ended by the renderer itself.
-/

namespace VerilogLayout

namespace Render

open Node

variable {S : Comment → Prop}

/-! ## Terminators and groups -/

/-- Cutting off a terminator takes it from the nodes or leaves the one that was given. -/
theorem within_splitTerminator {nodes : List Node} {given : Option Node} (h : AllWithin S nodes)
    (hgiven : ∀ token ∈ given, Within S token) :
    AllWithin S (splitTerminator nodes given).1 ∧
      ∀ token ∈ (splitTerminator nodes given).2, Within S token := by
  unfold splitTerminator
  split
  · next last hlast =>
      split
      · refine ⟨h.subset (List.dropLast_sublist _).subset, fun token htoken => ?_⟩
        obtain rfl := Option.some.inj htoken
        exact h _ (List.mem_of_getLast? hlast)
      · exact ⟨h, hgiven⟩
  · exact ⟨h, hgiven⟩

/-- All comments of groups, those of their separators included, lie in `S`. -/
def GroupsWithin (S : Comment → Prop) (groups : List Group) : Prop :=
  ∀ group ∈ groups, AllWithin S (group.items ++ group.separator.toList)

/-- Groups hold good comments if the first group and all others do. -/
theorem groupsWithin_cons {group : Group} {groups : List Group} :
    GroupsWithin S (group :: groups) ↔
      AllWithin S (group.items ++ group.separator.toList) ∧ GroupsWithin S groups :=
  List.forall_mem_cons

/-- Cutting nodes into groups keeps them within the tree. -/
theorem AllWithin.groups {nodes : List Node} (h : AllWithin S nodes) (lexeme : Text) :
    GroupsWithin S (Node.groups lexeme nodes) := by
  intro group hgroup node hnode
  refine h node ?_
  rw [← groups_flatten lexeme nodes]
  exact List.mem_flatMap.2 ⟨group, hgroup, hnode⟩

/-- What stands between two positions is part of the nodes. -/
theorem between_subset (nodes : List Node) (start stop : Nat) :
    between nodes start stop ⊆ nodes :=
  List.Subset.trans (List.drop_subset _ _) (List.take_subset _ _)

/-! ## Declarations -/

variable (columns : Columns)

theorem within_declarationFields {node : Node} {given : Option Node} (h : Within S node)
    (hgiven : ∀ token ∈ given, Within S token) :
    AllWithin S (node :: (declarationFields columns node given).2.toList) :=
  allWithin_cons.2 ⟨h, allWithin_toList.2 (within_splitTerminator h.children hgiven).2⟩

/-- What a child adds to the parts of a parameter declaration is in the tree. -/
theorem within_parameterParts {nodes : List Node} (h : AllWithin S nodes)
    {parts : ParameterParts} (hhead : AllWithin S parts.head)
    (hassignments : GroupsWithin S parts.assignments) :
    AllWithin S (nodes.foldl (ParameterParts.add columns) parts).head ∧
      GroupsWithin S (nodes.foldl (ParameterParts.add columns) parts).assignments := by
  induction nodes generalizing parts with
  | nil => exact ⟨hhead, hassignments⟩
  | cons node nodes ih =>
      obtain ⟨hnode, hnodes⟩ := allWithin_cons.1 h
      have hsingle : AllWithin S [node] := allWithin_cons.2 ⟨hnode, allWithin_nil⟩
      rw [List.foldl_cons]
      unfold ParameterParts.add
      split
      · exact ih hnodes hhead (List.forall_mem_append.2 ⟨hassignments, hnode.children.groups _⟩)
      · refine ih hnodes hhead (List.forall_mem_append.2 ⟨hassignments, ?_⟩)
        exact groupsWithin_cons.2 ⟨by simpa using hsingle, by simp [GroupsWithin]⟩
      · exact ih hnodes (allWithin_append.2 ⟨hhead, hsingle⟩) hassignments
      · exact ih hnodes (allWithin_append.2 ⟨hhead, hsingle⟩) hassignments

/-! ## Instances -/

/-- Flattening nested lists brings in no other comments. -/
theorem AllWithin.flattenLists {nodes : List Node} (h : AllWithin S nodes) (list : Kind) :
    AllWithin S (flattenLists list nodes) := by
  intro node hnode
  obtain ⟨parent, hparent, hnode⟩ := List.mem_flatMap.1 hnode
  split at hnode
  · exact (h parent hparent).children node hnode
  · rw [List.mem_singleton.1 hnode]
    exact h parent hparent

/-- The last of the nodes holds only good comments. -/
theorem AllWithin.getLast? {nodes : List Node} (h : AllWithin S nodes) :
    AllWithin S nodes.getLast?.toList :=
  allWithin_toList.2 fun node hnode => h node (List.mem_of_getLast? hnode)

/-- All comments of instances, those of their commas included, lie in `S`. -/
def InstancesWithin (S : Comment → Prop) (instances : List (Node × Option Node)) : Prop :=
  ∀ entry ∈ instances, AllWithin S (entry.1 :: entry.2.toList)

/-- A comma that is given to the last instance brings in good comments only. -/
theorem InstancesWithin.setComma {instances : List (Node × Option Node)}
    (h : InstancesWithin S instances) {comma : Node} (hcomma : Within S comma) :
    InstancesWithin S (setComma comma instances) := by
  unfold Render.setComma
  split
  · next node found hlast =>
      have hnode := (allWithin_cons.1 (h _ (List.mem_of_getLast? hlast))).1
      refine List.forall_mem_append.2
        ⟨fun entry hentry => h entry ((List.dropLast_sublist _).subset hentry), ?_⟩
      rintro entry hentry
      rw [List.mem_singleton.1 hentry]
      exact allWithin_cons.2 ⟨hnode, allWithin_cons.2 ⟨hcomma, allWithin_nil⟩⟩
  · exact h

end Render

namespace Standing

open Node Render

variable (standing : Standing) {S : Comment → Prop} (columns : Columns) {node : Node}
  {given terminator : Option Node} {nodes : List Node} {groups : List Group} (level : Int)

/-! ## Declarations -/

section
variable (h : Within S node) (hgiven : ∀ token ∈ given, Within S token)
include h hgiven

theorem writesLine_portDeclaration :
    standing.WritesLine S (portDeclaration columns node level given) :=
  (standing.writesLine_endOfLine (within_declarationFields columns h hgiven) level).after _

theorem writesLine_signalDeclaration :
    standing.WritesLine S (signalDeclaration columns node level given) :=
  (standing.writesLine_endOfLine (within_declarationFields columns h hgiven) level).after _

/-- A continuous assignment writes the comments that it takes, aligned or not. -/
theorem writesLine_continuousAssign :
    standing.WritesLine S (continuousAssign columns node level given) := by
  obtain ⟨hchildren, hterminator⟩ := within_splitTerminator h.children hgiven
  unfold continuousAssign
  dsimp only
  split
  · refine (keeps_require _).bind fun first keyword hkeyword => ?_
    obtain ⟨rfl, -⟩ := hkeyword
    exact (standing.writesLine_endOfLine (allWithin_append.2
      ⟨hchildren, allWithin_toList.2 hterminator⟩) level).after _
  · exact (standing.writesLine_endOfLine (allWithin_cons.2
      ⟨h, allWithin_toList.2 hterminator⟩) level).after _

end

theorem keeps_parameterLines (h : GroupsWithin S groups)
    (hterminator : ∀ token ∈ terminator, Within S token) :
    Keeps S (parameterLines columns level terminator groups) (Each standing.line) := by
  induction groups with
  | nil => exact .pure .nil
  | cons group rest ih =>
      obtain ⟨hgroup, hrest⟩ := groupsWithin_cons.1 h
      have hend : AllWithin S (group.items ++ group.separator.toList ++
          (if rest.isEmpty then terminator.toList else [])) := by
        refine allWithin_append.2 ⟨hgroup, ?_⟩
        split
        · exact allWithin_toList.2 hterminator
        · exact allWithin_nil
      unfold parameterLines
      refine (standing.writesLine_endOfLine hend _).bind fun first comments hfirst => ?_
      refine (ih hrest).bind fun second lines hsecond => .pure ?_
      rw [List.append_nil]
      exact .cons (hfirst.after _) hsecond

/-- A declaration of parameters writes the comments that it takes, in their order. -/
theorem writesLine_parameterDeclaration (hS : ∀ c, S c → standing.isGood c) (h : Within S node)
    (hgiven : ∀ token ∈ given, Within S token) :
    standing.WritesLine S (parameterDeclaration columns node level given) := by
  obtain ⟨hchildren, hterminator⟩ := within_splitTerminator h.children hgiven
  unfold parameterDeclaration
  dsimp only
  split
  · exact (standing.writes_woven hS h).writesLine
  · next keyword others hcons =>
      rw [hcons] at hchildren
      obtain ⟨hkeyword, hothers⟩ := allWithin_cons.1 hchildren
      have hnone : GroupsWithin S ({} : ParameterParts).assignments := by simp [GroupsWithin]
      obtain ⟨hhead, hassignments⟩ :=
        within_parameterParts columns hothers allWithin_nil hnone
      split
      · exact (standing.writes_woven hS h).writesLine
      · next first rest hgroups =>
          rw [hgroups] at hassignments
          obtain ⟨hfirst, hrest⟩ := groupsWithin_cons.1 hassignments
          have hend : AllWithin S (keyword :: (others.foldl (ParameterParts.add columns) {}).head ++
              first.items ++ first.separator.toList ++
                (if rest.isEmpty then (splitTerminator node.children given).2.toList else [])) := by
            rw [List.append_assoc (keyword :: _)]
            refine allWithin_append.2 ⟨allWithin_append.2
              ⟨allWithin_cons.2 ⟨hkeyword, hhead⟩, hfirst⟩, ?_⟩
            split
            · exact allWithin_toList.2 hterminator
            · exact allWithin_nil
          refine (standing.writesLine_endOfLine hend level).bind fun taken comments htaken => ?_
          refine (standing.keeps_parameterLines columns level hrest hterminator).bind
            fun more lines hlines => .pure ?_
          rw [List.append_nil]
          exact (Each.cons (htaken.after _) hlines).intercalate

/-! ## Instances -/

theorem writes_connectionLines (h : GroupsWithin S groups) (column : Int) :
    standing.Writes S (connectionLines level column groups) := by
  induction groups with
  | nil => exact standing.writes_pure _
  | cons group rest ih =>
      obtain ⟨hgroup, hrest⟩ := groupsWithin_cons.1 h
      unfold connectionLines
      split
      · exact ih hrest
      · refine (standing.writesLine_endOfLine hgroup level).bind fun first comments hfirst => ?_
        refine (ih hrest).bind fun second lines hsecond => .pure ?_
        simp only [List.append_assoc, List.append_nil]
        exact .after _ (.after _ (hfirst.above hsecond))

variable (S) in
/-- A renderer of a part of a line: its text, and the nodes whose comments are still pending. -/
def WritesPart (m : Render (Text × List Node)) : Prop :=
  Keeps S m fun taken result => standing.text taken result.1 ∧ AllWithin S result.2

/-- The connections between parentheses, behind the comments that are pending in front of them. -/
theorem writes_linesBetween (h : Within S node) {pending : List Node}
    (hpending : AllWithin S pending) (list : Kind) (start : Nat) (column : Int) (front : Text) :
    standing.WritesPart S (do
      let comments ← endOfLine level (pending ++ node.children.take start)
      let lines ← connectionLines (level + 1) column
        (Node.groups "," (flattenLists list (between node.children start
          (node.children.length - 1))))
      pure (front ++ comments ++ "\n" ++ lines ++ indentFor level ++ ")",
        node.children.getLast?.toList)) := by
  refine (standing.writesLine_endOfLine (allWithin_append.2
    ⟨hpending, h.children.subset (List.take_subset _ _)⟩) level).bind
      fun first comments hfirst => ?_
  refine (standing.writes_connectionLines _
    (((h.children.subset (between_subset _ _ _)).flattenLists _).groups ",") _).bind
      fun second lines hsecond => .pure ⟨?_, h.children.getLast?⟩
  simp only [List.append_assoc, List.append_nil]
  exact .after _ (hfirst.above (hsecond.before _))

/-- The block of parameter values writes the comments pending in front of it and its own. -/
theorem writes_parameterBlock (h : Within S node) {pending : List Node}
    (hpending : AllWithin S pending) :
    standing.WritesPart S (parameterBlock columns node level pending) := by
  unfold parameterBlock
  dsimp only
  split
  · refine .pure ⟨standing.code _, allWithin_append.2 ⟨hpending, ?_⟩⟩
    exact allWithin_cons.2 ⟨h, allWithin_nil⟩
  · exact standing.writes_linesBetween level h hpending _ _ _ _

theorem writes_instanceBlock (h : Within S node) {pending : List Node}
    (hpending : AllWithin S pending) :
    standing.WritesPart S (instanceBlock columns node level pending) := by
  unfold instanceBlock
  dsimp only
  split
  · refine .pure ⟨standing.code _, allWithin_append.2 ⟨hpending, ?_⟩⟩
    exact allWithin_cons.2 ⟨h, allWithin_nil⟩
  · split
    · exact .pure ⟨standing.code _, allWithin_append.2 ⟨hpending, h.children⟩⟩
    · exact standing.writes_linesBetween level h hpending _ _ _ _

/-- Reading an instantiation keeps the comments that are taken in its text and all others among
its pending nodes and instances. -/
theorem keeps_readInstantiation (h : AllWithin S nodes) {before : List Comment}
    {done : Instantiation} (htext : standing.text before done.text)
    (hpending : AllWithin S done.pending) (hinstances : InstancesWithin S done.instances) :
    Keeps S (readInstantiation columns level done nodes) fun taken result =>
      standing.text (before ++ taken) result.text ∧ AllWithin S result.pending ∧
        InstancesWithin S result.instances := by
  induction nodes generalizing before done with
  | nil => exact .pure ⟨by simpa using htext, hpending, hinstances⟩
  | cons node rest ih =>
      obtain ⟨hnode, hrest⟩ := allWithin_cons.1 h
      have hsingle : AllWithin S [node] := allWithin_cons.2 ⟨hnode, allWithin_nil⟩
      unfold readInstantiation
      split
      · refine (standing.writes_parameterBlock columns level hnode hpending).bind
          fun taken result hresult => ?_
        obtain ⟨block, pending⟩ := result
        let next : Instantiation := { done with text := done.text ++ " " ++ block, pending }
        have hnext : standing.text (before ++ taken) next.text :=
          (htext.before _).append hresult.1
        refine (ih hrest hnext hresult.2 hinstances).mono fun more parts _ hparts => ?_
        rwa [List.append_assoc] at hparts
      · refine ih hrest htext hpending (List.forall_mem_append.2 ⟨hinstances, ?_⟩)
        intro entry hentry
        rw [List.mem_singleton.1 hentry]
        exact hsingle
      · split
        · exact ih hrest htext hpending (hinstances.setComma hnode)
        · exact ih hrest ((htext.before _).before _) (allWithin_append.2 ⟨hpending, hsingle⟩)
            hinstances

theorem writes_instanceLines {instances : List (Node × Option Node)}
    (h : InstancesWithin S instances) (isFirst : Bool) {pending : List Node}
    (hpending : AllWithin S pending) :
    standing.WritesPart S (instanceLines columns level isFirst pending instances) := by
  induction instances generalizing isFirst pending with
  | nil => exact .pure ⟨standing.code _, hpending⟩
  | cons entry rest ih =>
      obtain ⟨node, comma?⟩ := entry
      obtain ⟨hentry, hrest⟩ := List.forall_mem_cons.1 h
      obtain ⟨hnode, hcomma⟩ := allWithin_cons.1 hentry
      unfold instanceLines
      refine (standing.writes_instanceBlock columns level hnode hpending).bind
        fun first result hresult => ?_
      obtain ⟨body, waiting⟩ := result
      cases comma? with
      | some comma =>
          refine (standing.writesLine_endOfLine (allWithin_append.2
            ⟨hresult.2, hcomma⟩) level).bind fun second comments hsecond => ?_
          refine (ih hrest false allWithin_nil).bind
            fun third lines hthird => .pure ⟨?_, hthird.2⟩
          simp only [List.append_assoc, List.append_nil]
          exact .after _ (hresult.1.append (.after _ (hsecond.above hthird.1)))
      | none =>
          refine (ih hrest false hresult.2).bind fun second lines hsecond => .pure ⟨?_, hsecond.2⟩
          simp only [List.append_assoc, List.append_nil]
          exact .after _ (hresult.1.append hsecond.1)

theorem writesLine_moduleInstantiation (hS : ∀ c, S c → standing.isGood c) (h : Within S node)
    (hgiven : ∀ token ∈ given, Within S token) :
    standing.WritesLine S (moduleInstantiation columns node level given) := by
  obtain ⟨hchildren, hterminator⟩ := within_splitTerminator h.children hgiven
  unfold moduleInstantiation
  dsimp only
  split
  · exact (standing.writes_woven hS h).writesLine
  · next name others hcons =>
      rw [hcons] at hchildren
      obtain ⟨hname, hothers⟩ := allWithin_cons.1 hchildren
      refine (standing.keeps_readInstantiation columns level hothers (standing.code _)
        (allWithin_cons.2 ⟨hname, allWithin_nil⟩) (by simp [InstancesWithin])).bind
          fun first parts hparts => ?_
      refine (standing.writes_instanceLines columns level hparts.2.2 true hparts.2.1).bind
        fun second result hresult => ?_
      refine (standing.writesLine_endOfLine (allWithin_append.2
        ⟨hresult.2, allWithin_toList.2 hterminator⟩) level).bind
          fun third comments hthird => .pure ?_
      simp only [List.append_assoc, List.append_nil]
      exact hparts.1.append_line (hresult.1.append_line (.after _ hthird))

end Standing
end VerilogLayout

import VerilogLayout.Proofs.Comments.Module
import VerilogLayout.Proofs.Comments.Statement
import VerilogLayout.Proofs.Total.Basic

/-!
# Renderers that give a result

`Node.WellShaped` says that every node of a tree has the children that its renderer requires.
Unwrapping and grouping keep nodes inside of the tree, so a renderer returns if the formatter that
it is given returns for well-shaped nodes, `ReturnsWithin`.
-/

namespace VerilogLayout

/-- A kind that cannot be written without any children. -/
def Kind.requiresChild : Kind → Bool
  | .alwaysConstruct | .initialConstruct | .seqBlock | .moduleParameterPortList => true
  | _ => false

namespace Node

/-- A node has the children that its renderer requires; the semicolon behind a continuous
assignment does not count. -/
def HasRequired (node : Node) : Prop :=
  (node.is Kind.requiresChild → node.children ≠ []) ∧
    (node.kind? = some .continuousAssign → (splitTerminator node.children none).1 ≠ [])

instance (node : Node) : Decidable node.HasRequired :=
  inferInstanceAs (Decidable ((_ → _) ∧ (_ → _)))

/-- All nodes of a tree have the children that their renderers require. -/
inductive WellShaped : Node → Prop where
  | node {node : Node} (hasRequired : node.HasRequired)
      (children : ∀ child ∈ node.children, WellShaped child) : WellShaped node

namespace WellShaped

variable {node : Node}

/-- A well-shaped node has the children that its renderer requires. -/
theorem hasRequired (h : node.WellShaped) : node.HasRequired := by
  cases h
  assumption

theorem children (h : node.WellShaped) : ∀ child ∈ node.children, child.WellShaped := by
  cases h
  assumption

/-- The phrase inside of wrappers belongs to the tree. -/
theorem unwrap (h : node.WellShaped) : node.unwrap.inner.WellShaped := by
  fun_induction Node.unwrap node with
  | case1 name value inner leading trailing _ below ih =>
      exact ih (h.children inner List.mem_cons_self)
  | case3 name value inner last leading trailing _ below ih =>
      exact ih (h.children inner List.mem_cons_self)
  | case2 | case4 | case5 => exact h

/-- The entries of a list belong to the tree. -/
theorem of_mem_groups (h : node.WellShaped) (lexeme : Text) (start stop : Nat) :
    ∀ group ∈ groups lexeme (between node.children start stop), ∀ entry ∈ group.items,
      entry.WellShaped := by
  intro group hgroup entry hentry
  refine h.children entry (Render.between_subset node.children start stop ?_)
  rw [← groups_flatten lexeme (between node.children start stop)]
  exact List.mem_flatMap.2 ⟨group, hgroup, List.mem_append_left _ hentry⟩

end WellShaped

theorem ne_nil_of_opensBlock {node : Node} (h : node.opensBlock) : node.children ≠ [] := by
  rintro hnil
  simp [opensBlock, hnil] at h

end Node

namespace Render

open Node

/-- The formatter writes all well-shaped nodes. -/
def ReturnsWithin (format : Formatter) : Prop :=
  ∀ node level terminator, node.WellShaped → Returns (format node level terminator)

theorem returns_assignment (node : Node) (level : Int) (terminator : Option Node) :
    Returns (assignment node level terminator) :=
  (returns_endOfLine _ _).map _

theorem returns_moduleEnd (close : Option Node) (level : Int) :
    Returns (moduleEnd close level) := by
  cases close with
  | none => exact .pure []
  | some token => exact (returns_emit _ _).bind fun _ => (returns_take _).map _

theorem returns_portNameLines (level : Int) (separator : Option Node) (nodes : List Node) :
    Returns (portNameLines level separator nodes) := by
  induction nodes with
  | nil => exact .pure []
  | cons node rest ih => exact (returns_endOfLine _ _).bind fun _ => ih.map _

theorem returns_portNameGroups (level : Int) (groups : List Group) :
    Returns (portNameGroups level groups) := by
  induction groups with
  | nil => exact .pure []
  | cons group rest ih => exact (returns_portNameLines _ _ _).bind fun _ => ih.map _

section
variable {format : Formatter} (hformat : ReturnsWithin format) {node statement : Node} (level : Int)
  {nodes : List Node}
include hformat

theorem returns_items (h : ∀ node ∈ nodes, node.WellShaped) :
    Returns (items format level nodes) := by
  induction nodes with
  | nil => exact .pure []
  | cons node nodes ih =>
      obtain ⟨hnode, hnodes⟩ := List.forall_mem_cons.1 h
      exact (hformat node level none hnode).bind fun _ => (ih hnodes).map _

/-! ## Statements -/

/-- A block requires its `begin`. -/
theorem returns_block (hne : node.children ≠ []) (h : node.WellShaped) (lead trail : List Comment) :
    Returns (block format node level lead trail) := by
  have hstatements : ∀ child ∈ (splitLabel (splitBlock node.children).1).2, child.WellShaped :=
    fun child hmem => h.children child
      (splitBlock_fst_subset _ ((splitLabel_subset (splitBlock node.children).1).2 hmem))
  exact (returns_require (List.isSome_head?.2 hne)).bind fun _ => (returns_inline _ _).bind fun _ =>
    (returns_items hformat _ hstatements).bind fun _ => (returns_closingLine _ _ _ _).map _

theorem returns_body (h : statement.WellShaped) (comments : List Comment) :
    Returns (body format statement level comments) := by
  unfold body
  dsimp only
  split
  · next hblock =>
      have hne := ne_nil_of_opensBlock (Bool.and_eq_true_iff.1 hblock).1
      exact (returns_block hformat level hne h.unwrap _ _).map _
  · exact (returns_inline _ _).bind fun _ => (hformat statement _ none h).map _

theorem returns_timedBody (h : statement.WellShaped) (comments : List Comment) :
    Returns (timedBody format statement level comments) := by
  have hplain : Returns (do pure (← body format statement level comments).1) :=
    (returns_body hformat level h comments).map _
  unfold timedBody
  dsimp only
  split
  · next control next others hchildren =>
      split
      · refine (returns_body hformat level (h.unwrap.children _ ?_) _).map _
        rw [hchildren]
        exact List.mem_cons_of_mem _ (List.getLast_mem _)
      · exact hplain
  · exact hplain

theorem returns_inlineStatement (h : statement.WellShaped) :
    Returns (inlineStatement format statement level) :=
  (hformat statement level none h).map _

theorem returns_seqBlock (hne : node.children ≠ []) (h : node.WellShaped) :
    Returns (seqBlock format node level) := by
  have hblock := returns_block hformat level hne h [] []
  unfold seqBlock
  split
  · next first statement last hchildren =>
      split
      · refine (hformat statement level none (h.children _ ?_)).map _
        rw [hchildren]
        exact List.mem_cons_of_mem _ List.mem_cons_self
      · exact hblock
  · exact hblock

theorem returns_generateBlock (h : node.WellShaped) :
    Returns (generateBlock format node level) := by
  unfold generateBlock
  split
  · next hopens => exact returns_block hformat level (ne_nil_of_opensBlock hopens) h [] []
  · exact (returns_items hformat level h.children).map _

theorem returns_conditional (fuel : Nat) (h : node.WellShaped) (extra : List Comment) :
    Returns (conditional format fuel node level extra) := by
  induction fuel generalizing node extra with
  | zero => exact .pure []
  | succ fuel ih =>
      unfold conditional
      split
      · next keyword others branches hchildren hbranches =>
          obtain ⟨-, hfirst, hsecond⟩ := Branches.subset hbranches
          refine (returns_body hformat level (h.children _ hfirst) _).bind fun result => ?_
          dsimp only
          split
          · exact .pure _
          · next elseToken branch hbranch =>
              have hshaped := h.children _ (hsecond _ hbranch).2
              split
              · exact (ih hshaped.unwrap _).map _
              · exact (returns_body hformat level hshaped _).map _
      · exact returns_woven node

theorem returns_caseStatement (h : node.WellShaped) :
    Returns (caseStatement format node level) := by
  unfold caseStatement
  dsimp only
  split
  · refine (returns_endOfLine _ _).bind fun _ => ?_
    refine (returns_items hformat _ fun child hmem => h.children child ?_).bind fun _ =>
      (returns_closingLine _ _ _ _).map _
    split at hmem
    · exact List.mem_of_mem_drop ((List.dropLast_sublist _).subset hmem)
    · exact List.mem_of_mem_drop hmem
  · exact returns_woven node

theorem returns_caseItem (h : node.WellShaped) : Returns (caseItem format node level) := by
  unfold caseItem
  split
  · exact .pure []
  · next statement hlast =>
      have hstatement := h.children _ (List.mem_of_getLast? hlast)
      refine (returns_unwritten _).bind fun pending => ?_
      split
      · exact (returns_inlineStatement hformat level hstatement).map _
      · exact (returns_body hformat level hstatement _).map _

theorem returns_loop (h : node.WellShaped) : Returns (loop format node level) := by
  unfold loop
  split
  · next first second others hchildren =>
      refine (returns_body hformat level (h.children _ ?_) _).map _
      rw [hchildren]
      exact List.mem_cons_of_mem _ (List.getLast_mem _)
  · exact returns_woven node

theorem returns_timingControl (h : node.WellShaped) :
    Returns (timingControl format node level) := by
  unfold timingControl
  split
  · next control next others hchildren =>
      have hstatement : ((next :: others).getLast (by simp)).WellShaped := by
        refine h.children _ ?_
        rw [hchildren]
        exact List.mem_cons_of_mem _ (List.getLast_mem _)
      dsimp only
      split
      · exact (returns_inlineStatement hformat level hstatement).map _
      · exact (returns_body hformat level hstatement _).map _
  · exact returns_woven node

/-- A construct requires its keyword and its statement. -/
theorem returns_procedural (hne : node.children ≠ []) (h : node.WellShaped) :
    Returns (procedural format node level) := by
  obtain ⟨first, hfirst⟩ := Option.isSome_iff_exists.1 (List.isSome_head?.2 hne)
  obtain ⟨last, hlast⟩ := Option.isSome_iff_exists.1 (List.getLast?_isSome.2 hne)
  rw [procedural, hfirst, hlast]
  exact (returns_timedBody hformat level (h.children _ (List.mem_of_getLast? hlast)) _).map _

/-! ## Modules and regions -/

theorem returns_sourceText (isFirst : Bool) (h : ∀ node ∈ nodes, node.WellShaped) :
    Returns (sourceText format level isFirst nodes) := by
  induction nodes generalizing isFirst with
  | nil => exact .pure []
  | cons node rest ih =>
      obtain ⟨hnode, hrest⟩ := List.forall_mem_cons.1 h
      refine (hformat node level none hnode).bind fun block => ?_
      split
      · exact ih isFirst hrest
      · exact (ih false hrest).map _

theorem returns_formatAll (terminator : Option Node) (h : ∀ node ∈ nodes, node.WellShaped) :
    Returns (formatAll format level terminator nodes) := by
  induction nodes with
  | nil => exact .pure []
  | cons node rest ih =>
      obtain ⟨hnode, hrest⟩ := List.forall_mem_cons.1 h
      exact (hformat node level terminator hnode).bind fun _ => (ih hrest).map _

theorem returns_declarationLines {groups : List Group}
    (h : ∀ group ∈ groups, ∀ node ∈ group.items, node.WellShaped) :
    Returns (declarationLines format level groups) := by
  induction groups with
  | nil => exact .pure []
  | cons group rest ih =>
      obtain ⟨hgroup, hrest⟩ := List.forall_mem_cons.1 h
      exact (returns_formatAll hformat level _ hgroup).bind fun _ => (ih hrest).map _

/-- A list of parameters requires its closing parenthesis. -/
theorem returns_parameterList (hne : node.children ≠ []) (h : node.WellShaped) (head : Open) :
    Returns (parameterList format node level head) := by
  have hgroups := h.of_mem_groups "," (through (indexOf? "(" node.children))
    (node.children.length - 1)
  exact (returns_endOfLine _ _).bind fun _ => (returns_declarationLines hformat _ hgroups).bind
    fun _ => (returns_require (List.getLast?_isSome.2 hne)).map _

theorem returns_portList (h : node.WellShaped) (head : Open) :
    Returns (portList format node level head) := by
  have hgroups := h.of_mem_groups "," (through (indexOf? "(" node.children))
    (node.children.length - 1)
  unfold portList
  dsimp only
  split
  · exact .pure _
  · refine (returns_endOfLine _ _).bind fun _ => ?_
    split
    · exact (returns_declarationLines hformat _ hgroups).map _
    · exact (returns_portNameGroups _ _).map _

omit hformat in
theorem returns_headList {write : Node → Open → Render Open} {list? : Option Node}
    (hwrite : ∀ list ∈ list?, ∀ head, Returns (write list head)) (head : Open) :
    Returns (headList write list? head) := by
  cases list? with
  | some list => exact hwrite list rfl head
  | none => exact .pure head

theorem returns_moduleDeclaration (h : node.WellShaped) :
    Returns (moduleDeclaration format node level) := by
  have hparts := madeOf_parts node.children
  have hparameters : ∀ list ∈ (ModuleParts.ofChildren node.children).parameters, ∀ head,
      Returns (parameterList format list level head) := by
    intro list hlist
    obtain ⟨hmem, hkind⟩ := hparts.parameters list hlist
    have hshaped := h.children list hmem
    have hne := hshaped.hasRequired.1 (by rw [is, hkind]; rfl)
    exact returns_parameterList hformat level hne hshaped
  have hports : ∀ list ∈ (ModuleParts.ofChildren node.children).ports, ∀ head,
      Returns (portList format list level head) :=
    fun list hlist => returns_portList hformat level (h.children list (hparts.ports list hlist).1)
  rw [moduleDeclaration_eq]
  refine (returns_headList hparameters _).bind fun _ => (returns_headList hports _).bind fun _ => ?_
  refine (returns_endOfLine _ _).bind fun _ => ?_
  refine (returns_items hformat _ fun child hmem => h.children child (hparts.items hmem)).bind
    fun _ => ?_
  exact (returns_moduleEnd _ _).map _

theorem returns_keywordBlock (h : node.WellShaped) : Returns (keywordBlock format node level) := by
  unfold keywordBlock
  dsimp only
  refine (returns_endOfLine _ _).bind fun _ => ?_
  refine (returns_items hformat _ fun child hmem => h.children child
    (splitClosing_fst_subset _ (List.mem_of_mem_drop hmem))).bind fun _ => ?_
  split
  · exact (returns_closingLine _ _ _ _).map _
  · exact .pure _

end
end Render
end VerilogLayout

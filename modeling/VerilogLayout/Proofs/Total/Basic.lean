import VerilogLayout.Proofs.Comments.Phrase
import VerilogLayout.Render.Declaration
import VerilogLayout.Render.Instance

/-!
# Rendering that gives a result

`Returns m` says that a computation does not fail, whatever the ledger is. Writing comments never
fails, so a renderer returns if the nodes that it requires are there and the phrases inside of it
return. Declarations and instances hold no phrases; of these only a continuous assignment requires
a node.
-/

namespace VerilogLayout.Render

open Node

variable {α β : Type}

/-- Whatever the ledger is at first, the computation gives a result. -/
def Returns (m : Render α) : Prop :=
  ∀ ledger, ∃ a final, m ledger = (.ok a, final)

namespace Returns

variable {m : Render α} {f : α → Render β}

theorem pure (a : α) : Returns (pure a) :=
  fun ledger => ⟨a, ledger, rfl⟩

theorem bind (hm : Returns m) (hf : ∀ a, Returns (f a)) : Returns (m >>= f) := by
  intro ledger
  obtain ⟨a, middle, hfirst⟩ := hm ledger
  obtain ⟨b, final, hsecond⟩ := hf a middle
  refine ⟨b, final, ?_⟩
  rw [bind_apply, hfirst]
  exact hsecond

/-- A result that is changed is still one. -/
theorem map (hm : Returns m) (g : α → β) : Returns (do Pure.pure (g (← m))) :=
  hm.bind fun a => .pure (g a)

/-- A ledger alone cannot fail. -/
theorem lift (m : StateM Ledger α) : Returns (liftM m : Render α) :=
  fun ledger => ⟨(m ledger).1, (m ledger).2, rfl⟩

end Returns

/-! ## Comments and phrases -/

theorem returns_take (comments : List Comment) : Returns (take comments) :=
  .lift (modifyGet (Ledger.take comments))

theorem returns_unwritten (comments : List Comment) : Returns (unwritten comments) :=
  fun ledger => ⟨_, ledger, rfl⟩

theorem returns_emit (comments : List Comment) (indent : Text) : Returns (emit comments indent) :=
  (returns_take comments).map _

theorem returns_inline (comments : List Comment) (indent : Text) :
    Returns (inline comments indent) :=
  (returns_take comments).map _

theorem returns_endOfLine (level : Int) (nodes : List Node) : Returns (endOfLine level nodes) :=
  returns_inline _ _

theorem returns_woven (node : Node) : Returns (woven node) := by
  rw [← liftM_woven]
  exact .lift node.woven

theorem returns_closingLine (token : Option Node) (text : Text) (level : Int)
    (extra : List Comment) : Returns (closingLine token text level extra) :=
  (returns_emit _ _).bind fun _ => (returns_inline _ _).map _

/-- A node that is there can be required. -/
theorem returns_require {node? : Option Node} (h : node?.isSome) : Returns (require node?) := by
  obtain ⟨node, rfl⟩ := Option.isSome_iff_exists.1 h
  exact .pure node

/-! ## Declarations -/

section
variable (columns : Columns) (node : Node) (level : Int) (given : Option Node)

theorem returns_portDeclaration : Returns (portDeclaration columns node level given) :=
  (returns_endOfLine _ _).map _

theorem returns_signalDeclaration : Returns (signalDeclaration columns node level given) :=
  (returns_endOfLine _ _).map _

theorem returns_parameterLines (groups : List Group) :
    Returns (parameterLines columns level given groups) := by
  induction groups with
  | nil => exact .pure []
  | cons group rest ih => exact (returns_endOfLine _ _).bind fun _ => ih.map _

theorem returns_parameterDeclaration : Returns (parameterDeclaration columns node level given) := by
  unfold parameterDeclaration
  dsimp only
  split
  · exact returns_woven node
  · split
    · exact returns_woven node
    · exact (returns_endOfLine _ _).bind fun _ => (returns_parameterLines columns level _ _).map _

/-- A continuous assignment requires its keyword. -/
theorem returns_continuousAssign (h : (splitTerminator node.children given).1 ≠ []) :
    Returns (continuousAssign columns node level given) := by
  unfold continuousAssign
  dsimp only
  split
  · exact (returns_require (List.isSome_head?.2 h)).bind fun _ => (returns_endOfLine _ _).map _
  · exact (returns_endOfLine _ _).map _

/-! ## Instances -/

theorem returns_connectionLines (column : Int) (groups : List Group) :
    Returns (connectionLines level column groups) := by
  induction groups with
  | nil => exact .pure []
  | cons group rest ih =>
      unfold connectionLines
      split
      · exact ih
      · exact (returns_endOfLine _ _).bind fun _ => ih.map _

theorem returns_parameterBlock (pending : List Node) :
    Returns (parameterBlock columns node level pending) := by
  unfold parameterBlock
  dsimp only
  split
  · exact .pure _
  · exact (returns_endOfLine _ _).bind fun _ => (returns_connectionLines _ _ _).map _

theorem returns_instanceBlock (pending : List Node) :
    Returns (instanceBlock columns node level pending) := by
  unfold instanceBlock
  dsimp only
  split
  · exact .pure _
  · split
    · exact .pure _
    · exact (returns_endOfLine _ _).bind fun _ => (returns_connectionLines _ _ _).map _

theorem returns_readInstantiation (nodes : List Node) (done : Instantiation) :
    Returns (readInstantiation columns level done nodes) := by
  induction nodes generalizing done with
  | nil => exact .pure done
  | cons node rest ih =>
      unfold readInstantiation
      split
      · exact (returns_parameterBlock columns node level _).bind fun _ => ih _
      · exact ih _
      · split
        · exact ih _
        · exact ih _

theorem returns_instanceLines (instances : List (Node × Option Node)) (isFirst : Bool)
    (pending : List Node) : Returns (instanceLines columns level isFirst pending instances) := by
  induction instances generalizing isFirst pending with
  | nil => exact .pure _
  | cons entry rest ih =>
      obtain ⟨node, comma?⟩ := entry
      refine (returns_instanceBlock columns node level pending).bind fun result => ?_
      cases comma? with
      | some comma => exact (returns_endOfLine _ _).bind fun _ => (ih false []).map _
      | none => exact (ih false result.2).map _

theorem returns_moduleInstantiation : Returns (moduleInstantiation columns node level given) := by
  unfold moduleInstantiation
  dsimp only
  split
  · exact returns_woven node
  · exact (returns_readInstantiation columns level _ _).bind fun parts =>
      (returns_instanceLines columns level parts.instances _ _).bind fun _ =>
        (returns_endOfLine _ _).map _

end
end VerilogLayout.Render

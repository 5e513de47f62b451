import VerilogLayout.Proofs.Comments.Tree
import VerilogLayout.Proofs.Total.Renderer

/-!
# A well-shaped tree has a text

`returns_renderer` runs through the kinds: each renderer finds the nodes that it requires.
`returnsWithin_formatAt` follows by induction on the fuel, and `exists_formatTree` says that a
well-shaped tree is written, whatever else it lacks.
-/

namespace VerilogLayout

namespace Render

open Node

/-- The nodes in front of a terminator do not depend on the one given. -/
theorem splitTerminator_fst (nodes : List Node) (given : Option Node) :
    (splitTerminator nodes given).1 = (splitTerminator nodes none).1 := by
  unfold splitTerminator
  split
  · split <;> rfl
  · rfl

theorem returns_headComments (unwrapped : Unwrapped) (indent : Text) :
    Returns (headComments unwrapped indent) :=
  (returns_emit _ _).bind fun _ => (returns_emit _ _).bind fun _ => (returns_emit _ _).map _

theorem returns_addTrailing (text : Text) (comments : List Comment) (indent : Text) :
    Returns (addTrailing text comments indent) := by
  unfold addTrailing
  split
  · exact .pure text
  · split
    · exact (returns_emit _ _).map _
    · exact (returns_unwritten _).bind fun _ => (returns_inline _ _).map _

variable (columns : Columns) {format : Formatter} {node : Node}

section
variable (hformat : ReturnsWithin format)
include hformat

/-- Every renderer finds the nodes that it requires. -/
theorem returns_renderer {kind : Kind} {render : Node → Int → Option Node → Render Text}
    (hrender : renderer? columns format kind = some render) (hkind : node.kind? = some kind)
    (h : node.WellShaped) (level : Int) (given : Option Node) :
    Returns (render node level given) := by
  obtain ⟨hchild, hassign⟩ := h.hasRequired
  rw [is, hkind] at hchild
  unfold renderer? at hrender
  split at hrender
  all_goals cases hrender
  · exact returns_sourceText hformat level true h.children
  · exact returns_moduleDeclaration hformat level h
  · refine returns_continuousAssign columns node level given ?_
    rw [splitTerminator_fst]
    exact hassign hkind
  · exact returns_moduleInstantiation columns node level given
  iterate 2 exact returns_procedural hformat level (hchild rfl) h
  · exact returns_seqBlock hformat level (hchild rfl) h
  iterate 2 exact returns_conditional hformat level _ h []
  · exact returns_caseStatement hformat level h
  · exact returns_caseItem hformat level h
  iterate 2 exact returns_loop hformat level h
  · exact returns_timingControl hformat level h
  iterate 2 exact returns_assignment node level given
  iterate 3 exact returns_keywordBlock hformat level h
  · exact returns_generateBlock hformat level h
  iterate 6 exact returns_portDeclaration columns node level given
  iterate 6 exact returns_signalDeclaration columns node level given
  iterate 2 exact returns_parameterDeclaration columns node level given

theorem returns_formatBody (h : node.WellShaped) (level : Int) (terminator : Option Node) :
    Returns (formatBody columns format node level terminator) := by
  rw [formatBody_eq]
  refine Returns.bind ?_ fun body => ?_
  · unfold phraseOf
    split
    · next render hrender =>
        obtain ⟨kind, hkind, hrender⟩ := Option.bind_eq_some_iff.1 hrender
        exact returns_renderer columns hformat hrender hkind h level terminator
    · exact returns_woven node
  · unfold withTerminator
    split
    · split
      · exact .pure body
      · exact (returns_inline _ _).map _
    · exact .pure body

theorem returns_formatWith (root : Bool) (h : node.WellShaped) (level : Int)
    (given : Option Node) : Returns (formatWith columns format root node level given) := by
  have hbody := returns_formatBody columns hformat h.unwrap level
    (given <|> node.unwrap.terminator)
  unfold formatWith
  dsimp only
  split
  · exact hbody.bind fun _ => (returns_addTrailing _ _ _).map _
  · exact (returns_headComments _ _).bind fun _ => hbody.bind fun _ =>
      (returns_addTrailing _ _ _).map _

end

/-- The fuel says how far down renderers run; without any nothing is required. -/
theorem returnsWithin_formatAt (fuel : Nat) : ReturnsWithin (formatAt columns fuel) := by
  induction fuel with
  | zero => exact fun _ _ _ _ => .pure []
  | succ fuel ih => exact fun _ level given h => returns_formatWith columns ih false h level given

theorem returns_formatWhole (h : node.WellShaped) : Returns (formatWhole columns node) := by
  refine (returns_formatWith columns (returnsWithin_formatAt columns _) true h 0 none).bind
    fun text => ?_
  refine (Returns.lift get).bind fun ledger => ?_
  dsimp only
  split
  · exact .pure _
  · exact (returns_emit _ _).map _

end Render

namespace Node

open Render

/-- A well-shaped tree has a text. -/
theorem exists_formatTree (columns : Columns) {root : Node} (h : root.WellShaped) :
    ∃ text, formatTree columns root = .ok text := by
  obtain ⟨⟨text, appended⟩, final, hrun⟩ := returns_formatWhole columns h {}
  refine ⟨cleanEnd text, ?_⟩
  have hok : ((formatWhole columns root).run {}).1 = .ok (text, appended) := congrArg Prod.fst hrun
  rw [formatTree, formatTreeCounted, hok]
  rfl

/-- A block without children has none. -/
example : formatTree Columns.standard { name := "seq_block" } = .error .missingChild := rfl

/-- A block that is not closed, a condition without anything behind its keyword, and an assignment
and a module that are broken off. -/
def brokenTree : Node where
  name := "source_text"
  children := [
    { name := "seq_block", children := [{ name := "BEGIN", value := some ("begin" : Text) }] },
    { name := "conditional_statement",
      children := [{ name := "IF", value := some ("if" : Text) }] },
    { name := "continuous_assign", children := [
      { name := "ASSIGN", value := some ("assign" : Text) },
      { name := "SEMI", value := some (";" : Text) }] },
    { name := "module_declaration" }]

/-- A tree that no parser would give has a text all the same. -/
theorem exists_formatTree_brokenTree :
    brokenTree.WellShaped ∧ ∃ text, formatTree Columns.standard brokenTree = .ok text := by
  have hshaped : brokenTree.WellShaped := by
    have hleaf : ∀ {node : Node}, node.children = [] → node.HasRequired → node.WellShaped :=
      fun hnil hrequired => .node hrequired (by rw [hnil]; exact List.forall_mem_nil _)
    refine .node (by decide) (List.forall_mem_cons.2 ⟨?_, List.forall_mem_cons.2 ⟨?_,
      List.forall_mem_cons.2 ⟨?_, List.forall_mem_singleton.2 (hleaf rfl (by decide))⟩⟩⟩)
    · exact .node (by decide) (List.forall_mem_singleton.2 (hleaf rfl (by decide)))
    · exact .node (by decide) (List.forall_mem_singleton.2 (hleaf rfl (by decide)))
    · exact .node (by decide) (List.forall_mem_cons.2
        ⟨hleaf rfl (by decide), List.forall_mem_singleton.2 (hleaf rfl (by decide))⟩)
  exact ⟨hshaped, exists_formatTree Columns.standard hshaped⟩

end Node
end VerilogLayout

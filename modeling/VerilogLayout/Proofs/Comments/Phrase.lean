import VerilogLayout.Proofs.Comments.Keep

/-!
# Phrases and their wrappers

A phrase that is woven by hand is the one that renderers write, `liftM_woven`. What is unwrapped
from a node, and the tokens in it, are nodes of the same tree.
-/

namespace VerilogLayout

namespace Render

open Node

variable {S : Comment → Prop}

mutual
/-- A phrase that is written in the manner of a renderer is the same phrase. -/
theorem liftM_spelledAt (place : Lexeme.Place) : (node : Node) →
    (liftM (spelledAt (m := StateM Ledger) (fun comments => modifyGet (Ledger.take comments)) place
      node) : Render Text) = spelledAt take place node
  | ⟨name, value, [], leading, trailing⟩ => by
      simp only [spelledAt, liftM_bind, liftM_pure]
      rfl
  | ⟨name, value, child :: children, leading, trailing⟩ => by
      simp only [spelledAt, liftM_bind, liftM_pure,
        liftM_spelledAll name true place.inRange 0 (child :: children)]
      rfl

/-- The same for the phrases inside of a phrase. -/
theorem liftM_spelledAll (parent : Text) (isFirst inRange : Bool) (depth : Int) :
    (nodes : List Node) →
    (liftM (spelledAll (m := StateM Ledger) (fun comments => modifyGet (Ledger.take comments))
      parent isFirst inRange depth nodes) : Render (List Text)) =
        spelledAll take parent isFirst inRange depth nodes
  | [] => by simp only [spelledAll, liftM_pure]
  | node :: rest => by
      simp only [spelledAll, liftM_bind, liftM_pure, liftM_spelledAt _ node,
        liftM_spelledAll parent false inRange _ rest]
end

/-- Weaving a node by hand is what rendering it does. -/
theorem liftM_woven (node : Node) : (liftM node.woven : Render Text) = woven node := by
  simp only [Node.woven, woven, spelled, liftM_bind, liftM_pure, liftM_spelledAt]

/-! ## Wrappers -/

/-- Unwrapping a node gives nodes of the same tree. -/
theorem within_unwrap {node : Node} (h : Within S node) :
    Within S node.unwrap.inner ∧ (∀ token ∈ node.unwrap.terminator, Within S token) ∧
      AllWithin S node.unwrap.wrappers := by
  fun_induction Node.unwrap node with
  | case1 name value inner leading trailing _ below ih =>
      obtain ⟨hinner, hterminator, hwrappers⟩ := ih (allWithin_cons.1 h.children).1
      exact ⟨hinner, hterminator, allWithin_cons.2 ⟨h, hwrappers⟩⟩
  | case3 name value inner last leading trailing _ below ih =>
      obtain ⟨hchild, hrest⟩ := allWithin_cons.1 h.children
      obtain ⟨hinner, -, hwrappers⟩ := ih hchild
      refine ⟨hinner, ?_, allWithin_cons.2 ⟨h, hwrappers⟩⟩
      simpa using (allWithin_cons.1 hrest).1
  | case2 | case4 | case5 => exact ⟨h, by simp, allWithin_nil⟩

theorem mem_wrapperLeading {wrappers : List Node} (h : AllWithin S wrappers) :
    ∀ c ∈ wrappers.flatMap leading, S c := by
  intro c hc
  obtain ⟨wrapper, hmem, hc⟩ := List.mem_flatMap.1 hc
  exact (h wrapper hmem).leading c hc

theorem mem_wrapperTrailing {wrappers : List Node} (h : AllWithin S wrappers) :
    ∀ c ∈ wrappers.reverse.flatMap trailing, S c := by
  intro c hc
  obtain ⟨wrapper, hmem, hc⟩ := List.mem_flatMap.1 hc
  exact (h wrapper (List.mem_reverse.1 hmem)).trailing c hc

/-- The terminator that is given, or else that of the node. -/
theorem within_terminator {node : Node} (h : Within S node) {given : Option Node}
    (hgiven : ∀ token ∈ given, Within S token) :
    ∀ token ∈ given <|> node.unwrap.terminator, Within S token := by
  cases given with
  | none => exact (within_unwrap h).2.1
  | some token => exact hgiven

/-- The comments behind a node and its wrappers. -/
theorem mem_allTrailing {node : Node} (h : Within S node) :
    ∀ c ∈ node.unwrap.inner.trailing ++ node.unwrap.wrappers.reverse.flatMap trailing, S c :=
  List.forall_mem_append.2
    ⟨(within_unwrap h).1.trailing, mem_wrapperTrailing (within_unwrap h).2.2⟩

/-! ## First tokens -/

mutual
/-- The tokens of a node are nodes of the same tree. -/
theorem within_tokens : (node : Node) → Within S node → AllWithin S node.tokens
  | ⟨name, value, children, leading, trailing⟩, h => by
      unfold tokens
      split
      · exact allWithin_cons.2 ⟨h, allWithin_nil⟩
      · exact within_tokensAll children h.children

/-- The tokens of nodes are nodes of the same trees. -/
theorem within_tokensAll : (nodes : List Node) → AllWithin S nodes →
    AllWithin S (tokensAll nodes)
  | [], _ => allWithin_nil
  | node :: rest, h => by
      obtain ⟨hnode, hrest⟩ := allWithin_cons.1 h
      exact allWithin_append.2 ⟨within_tokens node hnode, within_tokensAll rest hrest⟩
end

theorem mem_firstLeading {node : Node} (h : Within S node) :
    ∀ c ∈ (node.firstToken?.map leading).getD [], S c := by
  unfold firstToken?
  cases htokens : node.tokens with
  | nil => simp
  | cons token rest =>
      have hall := within_tokens node h
      rw [htokens] at hall
      exact (allWithin_cons.1 hall).1.leading

end Render
end VerilogLayout

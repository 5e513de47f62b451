import VerilogLayout.Proofs.Comments.Carry
import VerilogLayout.Render.Basic

/-!
# Rendering that keeps comments

`Keeps S m Q` is what a renderer promises: whenever `m` gives a result, the comments that it has
taken from the ledger lie in `S`, and they and the result satisfy `Q`. Read `Keeps.bind` first: the
comments of two computations come one behind the other.
-/

namespace VerilogLayout

namespace Ledger

/-- A ledger gains what it hands out. -/
theorem written_take (comments : List Comment) (ledger : Ledger) :
    (take comments ledger).2.written = (take comments ledger).1.reverse ++ ledger.written := by
  induction comments generalizing ledger with
  | nil => rfl
  | cons comment rest ih =>
      unfold take see
      split
      · next h =>
          split at h
          · simp at h
          · obtain ⟨-, rfl⟩ := Prod.mk.inj h
            simp [ih]
      · next h =>
          split at h
          · obtain ⟨-, rfl⟩ := Prod.mk.inj h
            exact ih _
          · simp at h

/-- A ledger hands out some of the comments that are passed to it, in their order. -/
theorem take_sublist (comments : List Comment) (ledger : Ledger) :
    (take comments ledger).1.Sublist comments := by
  induction comments generalizing ledger with
  | nil => simp [take]
  | cons comment rest ih =>
      unfold take
      split
      · exact (ih _).cons_cons comment
      · exact (ih _).cons comment

/-- The indexes of the comments that a ledger has written are distinct. -/
def IsDistinct (ledger : Ledger) : Prop :=
  ledger.consumed.Nodup

/-- Taking comments leaves the ledger without repetitions. -/
theorem IsDistinct.take {ledger : Ledger} (h : ledger.IsDistinct) (comments : List Comment) :
    (Ledger.take comments ledger).2.IsDistinct := by
  induction comments generalizing ledger with
  | nil => exact h
  | cons comment rest ih =>
      unfold Ledger.take see
      by_cases hseen : ledger.isConsumed comment.index
      · simp only [hseen, if_true]
        exact ih h
      · simp only [hseen, Bool.false_eq_true, if_false]
        refine ih (List.nodup_cons.2 ⟨?_, h⟩)
        exact fun hmem => hseen (isConsumed_iff.2 hmem)

end Ledger

namespace Render

variable {α β : Type} {S : Comment → Prop}

/-- Whatever the ledger is at first, if `m` gives a result, then the comments that it has written
lie in `S` and satisfy `Q` together with the result, and it has written no index twice. -/
def Keeps (S : Comment → Prop) (m : Render α) (Q : List Comment → α → Prop) : Prop :=
  ∀ ledger a final, m ledger = (.ok a, final) →
    (ledger.IsDistinct → final.IsDistinct) ∧
    ∃ taken, final.written = taken.reverse ++ ledger.written ∧ (∀ c ∈ taken, S c) ∧ Q taken a

/-- The second computation starts where the first one ends, unless that fails. -/
theorem bind_apply (m : Render α) (f : α → Render β) (ledger : Ledger) :
    (m >>= f) ledger =
      match m ledger with
      | (.ok a, final) => f a final
      | (.error e, final) => (.error e, final) := by
  show ExceptT.bind m f ledger = _
  simp only [ExceptT.bind, ExceptT.mk]
  show (ExceptT.bindCont f (m ledger).1) (m ledger).2 = _
  rcases m ledger with ⟨(e | a), final⟩ <;> rfl

/-- A result of two computations comes from a result of the first one. -/
theorem exists_of_bind {m : Render α} {f : α → Render β} {ledger final : Ledger} {b : β}
    (h : (m >>= f) ledger = (.ok b, final)) :
    ∃ a middle, m ledger = (.ok a, middle) ∧ f a middle = (.ok b, final) := by
  rw [bind_apply] at h
  rcases hfirst : m ledger with ⟨(e | a), middle⟩
  · rw [hfirst] at h
    exact absurd (congrArg Prod.fst h) (by simp)
  · rw [hfirst] at h
    exact ⟨a, middle, rfl, h⟩

theorem pure_apply (a : α) (ledger : Ledger) : (pure a : Render α) ledger = (.ok a, ledger) :=
  rfl

namespace Keeps

variable {m : Render α} {f : α → Render β} {P Q : List Comment → α → Prop}
  {R : List Comment → β → Prop}

theorem pure {a : α} (h : Q [] a) : Keeps S (pure a) Q := by
  intro ledger b final hrun
  obtain ⟨hb, rfl⟩ := Prod.mk.inj (show (Except.ok a, ledger) = (.ok b, final) from hrun)
  obtain rfl := Except.ok.inj hb
  exact ⟨id, [], rfl, by simp, h⟩

/-- What the first computation has taken comes in front of what the second takes. -/
theorem bind (hm : Keeps S m P)
    (hf : ∀ taken a, P taken a → Keeps S (f a) fun more b => R (taken ++ more) b) :
    Keeps S (m >>= f) R := by
  intro ledger b final hrun
  obtain ⟨a, middle, hfirst, hsecond⟩ := exists_of_bind hrun
  obtain ⟨hdistinct, taken, hwritten, hS, hP⟩ := hm ledger a middle hfirst
  obtain ⟨hdistinct', more, hwritten', hS', hR⟩ := hf taken a hP middle b final hsecond
  refine ⟨hdistinct' ∘ hdistinct, taken ++ more, ?_, ?_, hR⟩
  · rw [hwritten', hwritten, List.reverse_append, List.append_assoc]
  · intro c hc
    exact (List.mem_append.1 hc).elim (hS c) (hS' c)

theorem mono (hm : Keeps S m P) (h : ∀ taken a, (∀ c ∈ taken, S c) → P taken a → Q taken a) :
    Keeps S m Q := by
  intro ledger a final hrun
  obtain ⟨hdistinct, taken, hwritten, hS, hP⟩ := hm ledger a final hrun
  exact ⟨hdistinct, taken, hwritten, hS, h taken a hS hP⟩

/-- What has been taken lies in `S`. -/
theorem within (hm : Keeps S m P) :
    Keeps S m fun taken a => (∀ c ∈ taken, S c) ∧ P taken a :=
  hm.mono fun _ _ hS hP => ⟨hS, hP⟩

/-- A failing computation promises nothing. -/
theorem throw (e : RenderError) : Keeps S (throw e : Render α) Q := by
  intro ledger a final hrun
  have hfail : ((.error e, ledger) : Except RenderError α × Ledger) = (.ok a, final) := hrun
  simp at hfail

end Keeps

/-! ## Comments of nodes -/

/-- All comments of a node lie in `S`. -/
def Within (S : Comment → Prop) (node : Node) : Prop :=
  ∀ c ∈ node.comments, S c

/-- All comments of nodes lie in `S`. -/
def AllWithin (S : Comment → Prop) (nodes : List Node) : Prop :=
  ∀ node ∈ nodes, Within S node

theorem mem_commentsAll {c : Comment} {nodes : List Node} :
    c ∈ Node.commentsAll nodes ↔ ∃ node ∈ nodes, c ∈ node.comments := by
  induction nodes with
  | nil => simp [Node.commentsAll]
  | cons node nodes ih => simp [Node.commentsAll, ih]

/-- A node has the comments in front of it, those of its children and those behind it. -/
theorem comments_eq (node : Node) :
    node.comments = node.leading ++ Node.commentsAll node.children ++ node.trailing := by
  obtain ⟨name, value, children, leading, trailing⟩ := node
  rw [Node.comments]

/-- If nodes hold only good comments, all of their comments are good. -/
theorem AllWithin.commentsAll {nodes : List Node} (h : AllWithin S nodes) :
    ∀ c ∈ Node.commentsAll nodes, S c := by
  intro c hc
  obtain ⟨node, hmem, hc⟩ := mem_commentsAll.1 hc
  exact h node hmem c hc

/-- Some of the nodes, in any order. -/
theorem AllWithin.subset {nodes others : List Node} (h : AllWithin S nodes)
    (hsubset : others ⊆ nodes) : AllWithin S others :=
  fun node hmem => h node (hsubset hmem)

theorem allWithin_cons {node : Node} {nodes : List Node} :
    AllWithin S (node :: nodes) ↔ Within S node ∧ AllWithin S nodes :=
  List.forall_mem_cons

theorem allWithin_append {nodes others : List Node} :
    AllWithin S (nodes ++ others) ↔ AllWithin S nodes ∧ AllWithin S others :=
  List.forall_mem_append

theorem allWithin_nil : AllWithin S [] := by
  simp [AllWithin]

/-- A node that may be absent holds only good comments if it does when present. -/
theorem allWithin_toList {node? : Option Node} :
    AllWithin S node?.toList ↔ ∀ node ∈ node?, Within S node := by
  simp [AllWithin]

namespace Within

variable {node : Node}

theorem leading (h : Within S node) : ∀ c ∈ node.leading, S c := by
  intro c hc
  exact h c (by rw [comments_eq]; simp [hc])

theorem trailing (h : Within S node) : ∀ c ∈ node.trailing, S c := by
  intro c hc
  exact h c (by rw [comments_eq]; simp [hc])

theorem children (h : Within S node) : AllWithin S node.children := by
  intro child hmem c hc
  refine h c ?_
  rw [comments_eq]
  simp only [List.mem_append]
  exact .inl (.inr (mem_commentsAll.2 ⟨child, hmem, hc⟩))

end Within

/-! ## Taking comments -/

theorem keeps_take {comments : List Comment} (h : ∀ c ∈ comments, S c) :
    Keeps S (take comments) fun taken given => given = taken := by
  intro ledger given final hrun
  obtain ⟨hgiven, rfl⟩ := Prod.mk.inj
    (show (Except.ok (Ledger.take comments ledger).1, (Ledger.take comments ledger).2) =
      (.ok given, final) from hrun)
  obtain rfl := Except.ok.inj hgiven
  exact ⟨fun hd => hd.take comments, _, Ledger.written_take comments ledger,
    fun c hc => h c ((Ledger.take_sublist comments ledger).subset hc), rfl⟩

theorem keeps_unwritten (comments : List Comment) :
    Keeps S (unwritten comments) fun taken _ => taken = [] := by
  intro ledger given final hrun
  obtain ⟨-, rfl⟩ := Prod.mk.inj
    (show (Except.ok (comments.filter fun c => !ledger.isConsumed c.index), ledger) =
      (.ok given, final) from hrun)
  exact ⟨id, [], rfl, by simp, rfl⟩

/-- The last character of a text stays the last behind another text. -/
theorem getLast?_append_eq {front back : Text} {c : CodePoint} (h : back.getLast? = some c) :
    (front ++ back).getLast? = some c := by
  rw [List.getLast?_append, h, Option.some_or]

theorem keeps_get : Keeps S (get : Render Ledger) fun taken _ => taken = [] := by
  intro ledger found final hrun
  obtain ⟨-, rfl⟩ := Prod.mk.inj
    (show (Except.ok ledger, ledger) = (.ok found, final) from hrun)
  exact ⟨id, [], rfl, by simp, rfl⟩

theorem keeps_require (node? : Option Node) :
    Keeps S (require node?) fun taken node => taken = [] ∧ node? = some node := by
  cases node? with
  | none => exact .throw _
  | some node => exact .pure ⟨rfl, rfl⟩

end Render
end VerilogLayout

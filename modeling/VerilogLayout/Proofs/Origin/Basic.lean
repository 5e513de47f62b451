import VerilogLayout.Proofs.Nesting.Declaration
import VerilogLayout.Proofs.Source.Ink

/-!
# Where characters come from

A layout moves characters and adds few of its own: blanks, small letters and signs of punctuation.
All others come from the stock that a tree brings along, which is the text of its comments and of
its leaves; a leaf for the end of the file brings nothing. `Text.Drawn stock text` says that a text
has no other characters, and `Node.Stocked stock node` that a tree brings no other ones. Blanks do
not count, so every lemma on the ink of a text is one on its origin.
-/

namespace VerilogLayout

namespace Text

/-- The characters that a layout adds: small letters and signs of punctuation. -/
def isAdded (c : CodePoint) : Bool :=
  c.isIn Char.isLower || (",;:.=#@'()[]\x7b\x7d" : Text).contains c

/-- Every character is a blank, one that a layout adds, or one of the stock. -/
def Drawn (stock text : Text) : Prop :=
  ∀ c ∈ ink text, isAdded c ∨ c ∈ stock

variable {stock text other : Text}

@[simp]
theorem drawn_nil : Drawn stock [] :=
  fun _ hc => absurd hc List.not_mem_nil

@[simp]
theorem drawn_append : Drawn stock (text ++ other) ↔ Drawn stock text ∧ Drawn stock other := by
  rw [Drawn, ink_append]
  exact List.forall_mem_append

/-- A text of characters that a layout adds. -/
theorem drawn_added (h : ∀ c ∈ ink text, isAdded c) : Drawn stock text :=
  fun c hc => .inl (h c hc)

theorem drawn_space : Drawn stock " " :=
  drawn_added (by decide)

theorem drawn_stock (h : text ⊆ stock) : Drawn stock text :=
  fun _ hc => .inr (h (List.mem_filter.1 hc).1)

/-- Blanks play no part. -/
theorem Drawn.of_ink (h : Drawn stock other) (hink : ink text = ink other) : Drawn stock text := by
  rwa [Drawn, hink]

@[simp]
theorem drawn_spaces (n : Nat) : Drawn stock (spaces n) :=
  drawn_nil.of_ink (ink_spaces n)

@[simp]
theorem drawn_indentFor (level : Int) : Drawn stock (indentFor level) :=
  drawn_spaces _

theorem drawn_flatMap {α : Type} {items : List α} {f : α → Text}
    (h : ∀ item ∈ items, Drawn stock (f item)) : Drawn stock (items.flatMap f) := by
  induction items with
  | nil => exact drawn_nil
  | cons item rest ih =>
      obtain ⟨hitem, hrest⟩ := List.forall_mem_cons.1 h
      exact drawn_append.2 ⟨hitem, ih hrest⟩

theorem drawn_intercalate {separator : Text} (hseparator : Drawn stock separator)
    {texts : List Text}
    (h : ∀ text ∈ texts, Drawn stock text) : Drawn stock (List.intercalate separator texts) := by
  cases texts with
  | nil => exact drawn_nil
  | cons text rest =>
      obtain ⟨htext, hrest⟩ := List.forall_mem_cons.1 h
      rw [intercalate_cons]
      exact drawn_append.2 ⟨htext, drawn_flatMap fun other hother =>
        drawn_append.2 ⟨hseparator, hrest other hother⟩⟩

/-- A part of a text. -/
theorem Drawn.subset (h : Drawn stock other) (hsubset : text ⊆ other) : Drawn stock text :=
  fun c hc => h c (List.mem_filter.2
    ⟨hsubset (List.mem_filter.1 hc).1, (List.mem_filter.1 hc).2⟩)

end Text

open Text

namespace Lexeme

/-- Tokens that are written in one way are punctuation. -/
theorem isAdded_of_byName? {name : Text} {text : Text} (h : byName? name = some text) :
    ∀ c ∈ text, isAdded c := by
  have hfixed : ∀ entry ∈ fixed, ∀ c ∈ entry.2, isAdded c := by decide
  exact hfixed _ (mem_fixed_of_byName? h)

/-- What is written for a lexeme is drawn from a stock that has it. The end mark is not written. -/
theorem drawn_plain {stock lexeme : Text} (name : Text)
    (h : lexeme = endOfFile ∨ lexeme ⊆ stock) : Drawn stock (plain name lexeme) := by
  unfold plain
  split
  · exact drawn_nil
  · next hend =>
      cases hname : byName? name with
      | none => exact drawn_stock (h.resolve_left hend)
      | some text =>
          exact drawn_added fun c hc => isAdded_of_byName? hname c (List.mem_filter.1 hc).1

/-- A token with a lexeme that may be written. -/
theorem drawn_spaced {stock lexeme : Text} (name : Text) (h : Drawn stock lexeme) :
    Drawn stock (spaced {} name lexeme) := by
  by_cases hend : lexeme = endOfFile
  · rw [spaced, if_pos hend]
    exact drawn_nil
  · cases hname : byName? name with
    | none => exact h.of_ink (ink_spaced_of_free {} hname hend)
    | some text =>
        rw [spaced, if_neg hend, hname]
        exact drawn_added fun c hc => isAdded_of_byName? hname c (List.mem_filter.1 hc).1

end Lexeme

namespace Node

/-- What a tree brings along: its comments and its leaves, but for ends of files. -/
def stock (node : Node) : Text :=
  node.comments.flatMap Comment.text ++
    (node.leaves.filter fun leaf => leaf.lexeme ≠ Lexeme.endOfFile).flatMap lexeme

/-- The stock has all that a tree brings along. -/
structure Stocked (stock : Text) (node : Node) : Prop where
  comments : ∀ c ∈ node.comments, c.text ⊆ stock
  leaves : ∀ leaf ∈ node.leaves, leaf.lexeme = Lexeme.endOfFile ∨ leaf.lexeme ⊆ stock

/-- The stock has all that the nodes bring along. -/
def AllStocked (stock : Text) (nodes : List Node) : Prop :=
  ∀ node ∈ nodes, node.Stocked stock

/-- A terminator that may be written with its lexeme. -/
def EndsStocked (stock : Text) (terminator : Option Node) : Prop :=
  ∀ token ∈ terminator, token.Stocked stock ∧ Drawn stock token.lexeme

/-- The stock has all that groups bring along, and their separators may be written. -/
def GroupsStocked (stock : Text) (groups : List Group) : Prop :=
  ∀ group ∈ groups, AllStocked stock group.items ∧ EndsStocked stock group.separator

theorem endsStocked_none {stock : Text} : EndsStocked stock none :=
  fun _ h => by cases h

/-- The stock of a tree is enough for it. -/
theorem stocked_stock (node : Node) : node.Stocked node.stock where
  comments comment hcomment := by
    refine List.Subset.trans (fun c hc => ?_) (List.subset_append_left _ _)
    exact List.mem_flatMap.2 ⟨comment, hcomment, hc⟩
  leaves leaf hleaf := by
    refine (em _).imp_right fun hend => ?_
    refine List.Subset.trans (fun c hc => ?_) (List.subset_append_right _ _)
    exact List.mem_flatMap.2 ⟨leaf, List.mem_filter.2 ⟨hleaf, decide_eq_true hend⟩, hc⟩

variable {stock : Text} {node : Node} {nodes : List Node}

namespace AllStocked

/-- Fewer nodes bring along less. -/
theorem subset (h : AllStocked stock nodes) {others : List Node} (hsubset : others ⊆ nodes) :
    AllStocked stock others :=
  fun node hmem => h node (hsubset hmem)

theorem append {others : List Node} (h : AllStocked stock nodes)
    (hothers : AllStocked stock others) : AllStocked stock (nodes ++ others) :=
  List.forall_mem_append.2 ⟨h, hothers⟩

/-- The comments of stocked nodes are from the stock. -/
theorem commentsAll (h : AllStocked stock nodes) : ∀ c ∈ commentsAll nodes, c.text ⊆ stock := by
  intro c hc
  obtain ⟨node, hnode, hc⟩ := Render.mem_commentsAll.1 hc
  exact (h node hnode).comments c hc

end AllStocked

namespace Stocked

variable (h : node.Stocked stock)
include h

theorem within : Render.Within (fun c => c.text ⊆ stock) node :=
  h.comments

theorem children : AllStocked stock node.children := by
  intro child hchild
  refine ⟨fun c hc => h.comments c ?_, fun leaf hleaf => h.leaves leaf ?_⟩
  · rw [Render.comments_eq]
    exact List.mem_append_left _ (List.mem_append_right _
      (Render.mem_commentsAll.2 ⟨child, hchild, hc⟩))
  · rw [leaves_of_children_ne_nil (List.ne_nil_of_mem hchild)]
    exact mem_leavesAll.2 ⟨child, hchild, hleaf⟩

/-- A token that is not the end of the file. -/
theorem drawn_lexeme (htoken : node.isToken) (hend : node.lexeme ≠ Lexeme.endOfFile) :
    Drawn stock node.lexeme := by
  have hleaf : node ∈ node.leaves := by
    rw [leaves_of_isToken htoken]
    exact List.mem_singleton_self node
  exact drawn_stock ((h.leaves node hleaf).resolve_left hend)

/-- A token with a certain lexeme. -/
theorem ends {lexeme : Text} (hlexeme : node.isLexeme lexeme) (hend : lexeme ≠ Lexeme.endOfFile) :
    node.Stocked stock ∧ Drawn stock node.lexeme := by
  rw [isLexeme, Bool.and_eq_true] at hlexeme
  refine ⟨h, h.drawn_lexeme hlexeme.1 ?_⟩
  rwa [eq_of_beq hlexeme.2]

theorem drawn_text : Drawn stock node.text := by
  rw [Drawn, ← ink_unspaced, unspaced_text, ink_solidOf]
  refine fun c hc => ?_
  obtain ⟨leaf, hleaf, hc⟩ := List.mem_flatMap.1 hc
  rw [← ink_unspaced, unspaced_text_of_leaf (children_of_mem_leaves node hleaf), ink_unspaced] at hc
  exact Lexeme.drawn_plain leaf.name (h.leaves leaf hleaf) c hc

/-- What is in the wrappers. -/
theorem unwrap : node.unwrap.inner.Stocked stock ∧ EndsStocked stock node.unwrap.terminator ∧
    AllStocked stock node.unwrap.wrappers := by
  fun_induction Node.unwrap node with
  | case1 name value inner leading trailing _ below ih =>
      obtain ⟨hinner, hend, hwrappers⟩ := ih (h.children inner List.mem_cons_self)
      exact ⟨hinner, hend, List.forall_mem_cons.2 ⟨h, hwrappers⟩⟩
  | case3 name value inner last leading trailing hwrapper below ih =>
      obtain ⟨hinner, -, hwrappers⟩ := ih (h.children inner List.mem_cons_self)
      refine ⟨hinner, ?_, List.forall_mem_cons.2 ⟨h, hwrappers⟩⟩
      rintro _ ⟨⟩
      exact (h.children last (List.mem_cons_of_mem _ List.mem_cons_self)).ends
        (Bool.and_eq_true_iff.1 hwrapper).2 (by decide)
  | case2 | case4 | case5 => exact ⟨h, by simp [EndsStocked], fun _ hmem => by cases hmem⟩

end Stocked

namespace AllStocked

variable (h : AllStocked stock nodes)
include h

theorem drawn_joinedText : Drawn stock (joinedText nodes) := by
  rw [Drawn, joinedText, Spacing.ink_joinPieces, List.flatMap_map]
  intro c hc
  obtain ⟨node, hnode, hc⟩ := List.mem_flatMap.1 hc
  exact (h node hnode).drawn_text c hc

theorem drawn_spacedText : Drawn stock (spacedText nodes) :=
  h.drawn_joinedText.of_ink ((Render.ink_spacedText nodes).trans (ink_joinedText nodes).symm)

/-- The children of a phrase in place of it. -/
theorem opened : AllStocked stock (Node.opened nodes) := by
  unfold Node.opened
  split
  · split
    · exact h
    · exact (h _ List.mem_cons_self).children
  · exact h

/-- Some of the nodes replaced by their children. -/
theorem spliced (p : Node → Prop) [DecidablePred p] :
    AllStocked stock (nodes.flatMap fun node => if p node then node.children else [node]) := by
  intro child hmem
  obtain ⟨node, hnode, hchild⟩ := List.mem_flatMap.1 hmem
  split at hchild
  · exact (h node hnode).children child hchild
  · rw [List.mem_singleton.1 hchild]
    exact h node hnode

/-- Nodes between tokens that may be written. -/
theorem groups (lexeme : Text) (hend : lexeme ≠ Lexeme.endOfFile) :
    GroupsStocked stock (Node.groups lexeme nodes) := by
  induction nodes with
  | nil => exact List.forall_mem_nil _
  | cons node rest ih =>
      obtain ⟨hnode, hrest⟩ := List.forall_mem_cons.1 h
      have hsingle : AllStocked stock [node] := List.forall_mem_singleton.2 hnode
      unfold Node.groups
      split
      · next hlexeme =>
          refine List.forall_mem_cons.2 ⟨⟨List.forall_mem_nil _, ?_⟩, ih hrest⟩
          rintro _ ⟨⟩
          exact hnode.ends hlexeme hend
      · split
        · exact List.forall_mem_singleton.2 ⟨hsingle, endsStocked_none⟩
        · next group others hgroups =>
            have hothers := ih hrest
            rw [hgroups] at hothers
            obtain ⟨hgroup, hothers⟩ := List.forall_mem_cons.1 hothers
            exact List.forall_mem_cons.2 ⟨⟨hsingle.append hgroup.1, hgroup.2⟩, hothers⟩

/-- The nodes in front of a terminator and the terminator. -/
theorem splitTerminator {given : Option Node} (hgiven : EndsStocked stock given) :
    AllStocked stock (Node.splitTerminator nodes given).1 ∧
      EndsStocked stock (Node.splitTerminator nodes given).2 := by
  unfold Node.splitTerminator
  split
  · next last hlast =>
      split
      · next hsemicolon =>
          refine ⟨h.subset (List.dropLast_sublist _).subset, ?_⟩
          rintro _ ⟨⟩
          exact (h last (List.mem_of_getLast? hlast)).ends hsemicolon (by decide)
      · exact ⟨h, hgiven⟩
  · exact ⟨h, hgiven⟩

end AllStocked

namespace EndsStocked

variable {terminator : Option Node} (h : EndsStocked stock terminator)
include h

theorem toList : AllStocked stock terminator.toList := by
  intro token htoken
  exact (h token (Option.mem_toList.1 htoken)).1

theorem drawn_terminatorText : Drawn stock (terminatorText terminator) := by
  cases terminator with
  | none => exact drawn_nil
  | some token => exact (h token rfl).2

end EndsStocked

end Node
end VerilogLayout

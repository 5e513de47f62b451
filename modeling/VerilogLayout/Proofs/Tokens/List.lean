import VerilogLayout.Proofs.Procedural.Tokens
import VerilogLayout.Proofs.Tokens.Line

/-!
# Lists with commas

`Listed p nodes entries` says that nodes are a list: items in the class `p` with commas between
them, none of them empty. Renderers cut a list at its commas, and `Listed.groups_eq` says that they
get these items.
-/

namespace VerilogLayout

open Text

namespace Node.IsWritten

variable {node : Node} {lexeme : Text}

/-- A written token has its lexeme. -/
theorem lexeme_eq (h : IsWritten lexeme node) : node.isToken ∧ node.lexeme = lexeme := by
  have hlexeme := h.1
  rw [isLexeme, Bool.and_eq_true] at hlexeme
  exact ⟨hlexeme.1, eq_of_beq hlexeme.2⟩

theorem children_eq (h : IsWritten lexeme node) : node.children = [] := by
  have htoken := h.lexeme_eq.1
  rw [isToken, Bool.and_eq_true] at htoken
  exact List.isEmpty_iff.1 htoken.2

/-- A written token is its only leaf. -/
theorem leaves_eq (h : IsWritten lexeme node) : node.leaves = [node] :=
  leaves_of_isToken h.lexeme_eq.1

/-- A token without its spaces is its lexeme. -/
theorem unspaced_text (h : IsWritten lexeme node)
    (hlexeme : unspaced lexeme = lexeme ∧ lexeme ≠ Lexeme.endOfFile) :
    unspaced node.text = lexeme := by
  have hplain : Lexeme.plain node.name node.lexeme = lexeme := by
    rw [Lexeme.plain, h.lexeme_eq.2, if_neg hlexeme.2]
    cases hfixed : Lexeme.byName? node.name with
    | none => rfl
    | some text => exact h.2 text hfixed
  rw [unspaced_text_of_leaf h.children_eq, hplain, hlexeme.1]

end Node.IsWritten

namespace Group

/-- The leaves of a group, those of its separator among them. -/
def leaves (group : Group) : List Node :=
  Node.leavesAll (group.items ++ group.separator.toList)

end Group

namespace Node

/-- An item between the commas of a list. -/
structure IsItem (p : List Node → Prop) (nodes : List Node) : Prop where
  ne_nil : nodes ≠ []
  no_comma : ∀ node ∈ nodes, node.isLexeme "," = false
  item : p nodes

/-- `Listed p nodes entries` says that `nodes` are items in the class `p` with commas between
them, and `entries` the items, each with the comma behind it. -/
inductive Listed (p : List Node → Prop) : List Node → List Group → Prop where
  | last {nodes} : IsItem p nodes → Listed p nodes [{ items := nodes }]
  | cons {nodes comma rest entries} : IsItem p nodes → IsWritten "," comma →
      Listed p rest entries →
      Listed p (nodes ++ comma :: rest) ({ items := nodes, separator := some comma } :: entries)

/-- Nodes without a separator make one group. -/
theorem groups_of_forall {lexeme : Text} {nodes : List Node} (hne : nodes ≠ [])
    (h : ∀ node ∈ nodes, node.isLexeme lexeme = false) :
    groups lexeme nodes = [{ items := nodes }] := by
  induction nodes with
  | nil => exact absurd rfl hne
  | cons node rest ih =>
      obtain ⟨hnode, hrest⟩ := List.forall_mem_cons.1 h
      cases rest with
      | nil => simp [groups, hnode]
      | cons next others => rw [groups, hnode, ih (by simp) hrest]; rfl

/-- A separator ends a group. -/
theorem groups_append {lexeme : Text} {nodes : List Node} {separator : Node} {rest : List Node}
    (h : ∀ node ∈ nodes, node.isLexeme lexeme = false) (hseparator : separator.isLexeme lexeme) :
    groups lexeme (nodes ++ separator :: rest) =
      { items := nodes, separator := some separator } :: groups lexeme rest := by
  induction nodes with
  | nil => simp [groups, hseparator]
  | cons node others ih =>
      obtain ⟨hnode, hothers⟩ := List.forall_mem_cons.1 h
      rw [List.cons_append, groups, hnode, ih hothers]
      rfl

namespace Listed

variable {p : List Node → Prop} {nodes : List Node} {entries : List Group}

/-- A list cut at its commas is its items. -/
theorem groups_eq (h : Listed p nodes entries) : groups "," nodes = entries := by
  induction h with
  | last hitem => exact groups_of_forall hitem.ne_nil hitem.no_comma
  | cons hitem hcomma _ ih => rw [groups_append hitem.no_comma hcomma.1, ih]

/-- The nodes of a list are its items and commas in order. -/
theorem flatMap_eq (h : Listed p nodes entries) :
    entries.flatMap (fun group => group.items ++ group.separator.toList) = nodes := by
  rw [← h.groups_eq]
  exact groups_flatten _ _

/-- The entries of a list have its leaves. -/
theorem leavesAll_eq (h : Listed p nodes entries) :
    leavesAll nodes = entries.flatMap Group.leaves := by
  have hflat : ∀ groups : List Group, leavesAll (groups.flatMap fun group =>
      group.items ++ group.separator.toList) = groups.flatMap Group.leaves := by
    intro groups
    induction groups with
    | nil => rfl
    | cons group rest ih => rw [List.flatMap_cons, leavesAll_append, ih]; rfl
  rw [← hflat, h.flatMap_eq]

/-- Every entry is an item, and every separator a comma. -/
theorem entry (h : Listed p nodes entries) :
    ∀ group ∈ entries, IsItem p group.items ∧ ∀ comma ∈ group.separator, IsWritten "," comma := by
  induction h with
  | last hitem => simpa using hitem
  | cons hitem hcomma _ ih => exact List.forall_mem_cons.2 ⟨⟨hitem, by simpa using hcomma⟩, ih⟩

/-- A list has one node at least. -/
theorem nodes_ne_nil (h : Listed p nodes entries) : nodes ≠ [] := by
  cases h with
  | last hitem => exact hitem.ne_nil
  | cons => simp

/-- A comma behind a list separates nothing. -/
theorem groups_concat (h : Listed p nodes entries) {comma : Node} (hcomma : comma.isLexeme ",") :
    (groups "," (nodes ++ [comma])).map Group.items = entries.map Group.items := by
  induction h with
  | last hitem => rw [groups_append hitem.no_comma hcomma]; rfl
  | cons hitem hbetween _ ih =>
      rw [List.append_assoc, List.cons_append, groups_append hitem.no_comma hbetween.1,
        List.map_cons, ih]
      rfl

theorem ne_nil (h : Listed p nodes entries) : entries ≠ [] := by
  cases h <;> simp

/-- The only entry of a list is the list. -/
theorem single {entry : Group} (h : Listed p nodes [entry]) :
    entry = { items := nodes } ∧ IsItem p nodes := by
  cases h with
  | last hitem => exact ⟨rfl, hitem⟩
  | cons _ _ hrest => exact absurd rfl hrest.ne_nil

/-- Names are joined with the commas that stand between them. -/
theorem ink_intercalate (h : Listed p nodes entries) :
    ink (List.intercalate ", " ((entries.map Group.items).map joinedText)) =
      inkOf (entries.flatMap Group.leaves) := by
  induction h with
  | last _ => simp [ink_joinedText, Group.leaves]
  | @cons nodes comma rest entries hitem hcomma hrest ih =>
      have hseparator : ink ", " = "," := rfl
      obtain ⟨next, others, rfl⟩ : ∃ next others, entries = next :: others := by
        cases hrest <;> exact ⟨_, _, rfl⟩
      have hleaves : inkOf (Group.leaves { items := nodes, separator := some comma }) =
          inkOf (leavesAll nodes) ++ "," := by
        simp [Group.leaves, leavesAll, hcomma.leaves_eq, hcomma.ink (by decide),
          -String.reduceToList]
      simp only [List.map_cons, List.intercalate_cons_cons, ink_append, hseparator] at ih ⊢
      rw [ih, ink_joinedText, ← hleaves, ← inkOf_append]
      rfl

end Listed

/-! ## Terminators -/

/-- Nodes are cut before the semicolon at their end. -/
theorem splitTerminator_append {front : List Node} {semicolon terminator : Option Node}
    (hlast : ∀ last ∈ front.getLast?, last.isLexeme ";" = false)
    (hsemicolon : ∀ token ∈ semicolon, token.isLexeme ";") :
    splitTerminator (front ++ semicolon.toList) terminator = (front, semicolon <|> terminator) := by
  cases semicolon with
  | none =>
      rw [Option.toList_none, List.append_nil, splitTerminator]
      cases hend : front.getLast? with
      | none => rfl
      | some last =>
          dsimp only
          rw [hlast last hend]
          rfl
  | some token =>
      rw [Option.toList_some, splitTerminator, List.getLast?_concat, List.dropLast_concat]
      exact if_pos (hsemicolon token rfl)

/-- A renderer that writes the terminator itself writes all of the phrase. -/
theorem format_of_phrase (columns : Columns) {node : Node} (hplain : node.Plain) {kind : Kind}
    (hkind : node.unwrap.inner.kind? = some kind) (hwrites : kind.writesTerminator)
    {given : Option Node} (hgiven : ∀ token ∈ given, token.Plain) (root : Bool) {level : Int}
    {body : Text} (hbody : phrase columns (formatAt columns node.height) node.unwrap.inner level
      (given <|> node.unwrap.terminator) = pure body) :
    format columns root node level given = pure (placed root node level body) := by
  have hterminated : terminated node.unwrap.inner level (given <|> node.unwrap.terminator) body =
      body := by
    unfold terminated
    split
    · rw [hkind, Option.any_some, if_pos hwrites]
    · rfl
  rw [format, formatWith_plain columns _ root hplain level hgiven, hbody, map_pure,
    Function.comp_apply, hterminated]

end Node
end VerilogLayout

import VerilogLayout.Proofs.Comments.Phrase
import VerilogLayout.Render.Document

/-!
# Trees without comments

A plain node has no comment on it or below it. There is nothing to take from a ledger then, so the
pieces that renderers are made of are pure texts. Read `formatWith_plain` first: a node at a level
is its phrase with a terminator, an indentation and a line feed.
-/

namespace VerilogLayout

namespace Node

/-- A node without comments on it or below it. -/
abbrev Plain (node : Node) : Prop :=
  Render.Within (fun _ => False) node

/-- Nodes without comments on them or below them. -/
abbrev AllPlain (nodes : List Node) : Prop :=
  Render.AllWithin (fun _ => False) nodes

/-- A node is plain if and only if it has no comments. -/
theorem plain_iff {node : Node} : node.Plain ↔ node.comments = [] := by
  simp [Plain, Render.Within, List.eq_nil_iff_forall_not_mem]

/-- Plain nodes have no comments. -/
theorem AllPlain.commentsAll_eq {nodes : List Node} (h : AllPlain nodes) :
    commentsAll nodes = [] :=
  List.eq_nil_iff_forall_not_mem.2 h.commentsAll

namespace Plain

variable {node : Node} (h : node.Plain)
include h

theorem leading_eq : node.leading = [] :=
  List.eq_nil_iff_forall_not_mem.2 (Render.Within.leading h)

theorem trailing_eq : node.trailing = [] :=
  List.eq_nil_iff_forall_not_mem.2 (Render.Within.trailing h)

end Plain

theorem wrapperLeading_plain {wrappers : List Node} (h : AllPlain wrappers) :
    wrapperLeading wrappers = [] :=
  List.eq_nil_iff_forall_not_mem.2 (Render.mem_wrapperLeading h)

theorem wrapperTrailing_plain {wrappers : List Node} (h : AllPlain wrappers) :
    wrapperTrailing wrappers = [] :=
  List.eq_nil_iff_forall_not_mem.2 (Render.mem_wrapperTrailing h)

end Node

namespace Render

open Node

@[simp]
theorem take_nil : take [] = pure [] :=
  rfl

@[simp]
theorem emit_nil (indent : Text) : emit [] indent = pure [] :=
  rfl

@[simp]
theorem inline_nil (indent : Text) : inline [] indent = pure [] :=
  rfl

/-- Plain nodes put nothing at the end of a line. -/
theorem endOfLine_plain {nodes : List Node} (h : AllPlain nodes) (level : Int) :
    endOfLine level nodes = pure [] := by
  rw [endOfLine, h.commentsAll_eq, inline_nil]

/-! ## Phrases -/

mutual
/-- A plain phrase is written without a look at the ledger. -/
theorem spelledAt_plain (place : Lexeme.Place) : (node : Node) → node.Plain →
    spelledAt take place node = pure (Id.run (spelledAt (fun _ => pure []) place node))
  | ⟨name, value, [], leading, trailing⟩, h => by
      obtain rfl : leading = [] := h.leading_eq
      obtain rfl : trailing = [] := h.trailing_eq
      simp [spelledAt]
  | ⟨name, value, child :: children, leading, trailing⟩, h => by
      obtain rfl : leading = [] := h.leading_eq
      obtain rfl : trailing = [] := h.trailing_eq
      simp [spelledAt, spelledAll_plain name true place.inRange 0 (child :: children) h.children]

/-- The same for the phrases inside of a phrase. -/
theorem spelledAll_plain (parent : Text) (isFirst inRange : Bool) (depth : Int) :
    (nodes : List Node) → AllPlain nodes →
    spelledAll take parent isFirst inRange depth nodes =
      pure (Id.run (spelledAll (fun _ => pure []) parent isFirst inRange depth nodes))
  | [], _ => rfl
  | node :: rest, h => by
      obtain ⟨hnode, hrest⟩ := allWithin_cons.1 h
      simp [spelledAll, spelledAt_plain _ node hnode,
        spelledAll_plain parent false inRange _ rest hrest]
end

/-- A plain node is woven as its text. -/
theorem woven_plain {node : Node} (h : node.Plain) : woven node = pure node.text := by
  simp [woven, spelled, Node.text, spelledAt_plain _ node h]

/-- A closing line of plain nodes is its text. -/
theorem closingLine_plain {token : Option Node} (h : ∀ node ∈ token, node.Plain) (text : Text)
    (level : Int) :
    closingLine token text level [] = pure (indentFor level ++ text ++ "\n") := by
  cases token with
  | none => simp [closingLine]
  | some node =>
      simp [closingLine, (h node rfl).leading_eq, (h node rfl).trailing_eq]

end Render

namespace Node

open Render

/-- A plain node has nothing in front. -/
theorem headComments_plain {unwrapped : Unwrapped} (hinner : unwrapped.inner.Plain)
    (hwrappers : AllPlain unwrapped.wrappers) (indent : Text) :
    headComments unwrapped indent = pure [] := by
  have hfirst : (unwrapped.inner.firstToken?.map Node.leading).getD [] = [] :=
    List.eq_nil_iff_forall_not_mem.2 (mem_firstLeading hinner)
  simp [headComments, wrapperLeading_plain hwrappers, hinner.leading_eq, hfirst]

@[simp]
theorem addTrailing_nil (text indent : Text) : addTrailing text [] indent = pure text :=
  rfl

/-- A phrase with the terminator that belongs behind it. -/
def terminated (inner : Node) (level : Int) (terminator : Option Node) (body : Text) : Text :=
  match terminator with
  | some token =>
      if inner.kind?.any Kind.writesTerminator then body
      else attach body (Lexeme.spaced {} token.name token.lexeme) (indentFor level)
  | none => body

/-- A phrase in its place: indented, and with a line feed behind it if it ends a line. -/
def placed (root : Bool) (node : Node) (level : Int) (body : Text) : Text :=
  let isIndented := root || node.unwrap.inner.is Kind.indentsItself || body.isEmpty ||
    Text.startsWith body "\n"
  let text := if isIndented then body else indentFor level ++ body
  if (root || (node.unwrap.wrappers ++ [node.unwrap.inner]).any (·.is Kind.isMajor)) &&
      !text.isEmpty && !endsLine text then text ++ "\n" else text

/-- The renderer of a node, or the phrase as it stands. -/
def phrase (columns : Columns) (format : Formatter) (inner : Node) (level : Int)
    (terminator : Option Node) : Render Text :=
  match inner.kind?.bind (renderer? columns format) with
  | some render => render inner level terminator
  | none => pure inner.text

/-- The body of a plain node is its phrase with the terminator. -/
theorem formatBody_plain (columns : Columns) (format : Formatter) {inner : Node}
    (h : inner.Plain) (level : Int) {terminator : Option Node}
    (hterminator : ∀ token ∈ terminator, token.Plain) :
    formatBody columns format inner level terminator =
      terminated inner level terminator <$> phrase columns format inner level terminator := by
  have hbehind : ∀ m : Render Text, (do
        let body ← m
        match terminator with
        | some token =>
          if inner.kind?.any Kind.writesTerminator then pure body
          else do
            let comments ← Render.inline token.comments (indentFor level)
            pure (attach body (Lexeme.spaced {} token.name token.lexeme) (indentFor level) ++
              comments)
        | none => pure body) = terminated inner level terminator <$> m := by
    intro m
    rw [← bind_pure_comp]
    congr 1
    funext body
    cases terminator with
    | none => rfl
    | some token =>
        dsimp only
        rw [plain_iff.1 (hterminator token rfl), inline_nil, pure_bind, List.append_nil]
        exact (apply_ite pure _ _ _).symm
  unfold formatBody phrase
  rw [liftM_woven, woven_plain h]
  dsimp only
  cases inner.kind?.bind (renderer? columns format) with
  | some render => exact hbehind _
  | none => exact hbehind _

/-- A plain node at a level. -/
theorem formatWith_plain (columns : Columns) (format : Formatter) (root : Bool) {node : Node}
    (h : node.Plain) (level : Int) {given : Option Node} (hgiven : ∀ token ∈ given, token.Plain) :
    formatWith columns format root node level given =
      (placed root node level ∘ terminated node.unwrap.inner level
        (given <|> node.unwrap.terminator)) <$>
        phrase columns format node.unwrap.inner level (given <|> node.unwrap.terminator) := by
  obtain ⟨hphrase, -, hwrappers⟩ := within_unwrap h
  have hinner : node.unwrap.inner.Plain := hphrase
  have hterminator : ∀ token ∈ given <|> node.unwrap.terminator, token.Plain :=
    within_terminator h hgiven
  unfold formatWith
  simp only [headComments_plain hinner hwrappers, hinner.trailing_eq,
    wrapperTrailing_plain hwrappers, formatBody_plain columns format hinner level hterminator,
    List.nil_append, addTrailing_nil, pure_bind, ite_self]
  rw [bind_pure_comp, comp_map]
  rfl

end Node
end VerilogLayout

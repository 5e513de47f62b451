import VerilogLayout.Proofs.Comments.Tree
import VerilogLayout.Proofs.Origin.Module

/-!
# A tree draws on its stock

Every renderer of a kind draws on the stock, so a node at a level does whatever fuel is left, and a
whole tree with the comments that are left over draws on its own stock: `drawn_formatWhole`.
-/

namespace VerilogLayout.Render

open Node
open Text (Drawn drawn_nil drawn_append drawn_added drawn_indentFor)

variable {stock : Text}

theorem drawn_attach {text : Text} (htext : Drawn stock text) {terminator : Text}
    (hterminator : Drawn stock terminator) {indent : Text} (hindent : Drawn stock indent) :
    Drawn stock (attach text terminator indent) := by
  unfold attach
  split
  · exact drawn_append.2 ⟨htext, hterminator⟩
  · split
    · exact drawn_append.2 ⟨drawn_append.2 ⟨htext, hindent⟩, hterminator⟩
    · exact drawn_append.2 ⟨drawn_append.2 ⟨drawn_dropLast htext, hterminator⟩,
        drawn_added (by decide)⟩

theorem draws_headComments {unwrapped : Unwrapped} (hinner : unwrapped.inner.Stocked stock)
    (hwrappers : AllStocked stock unwrapped.wrappers) {indent : Text}
    (hindent : Drawn stock indent) : Draws stock (headComments unwrapped indent) := by
  refine (draws_emit (stocked_wrapperLeading hwrappers) hindent).bind fun front hfront => ?_
  refine (draws_emit hinner.within.leading hindent).bind fun own hown => ?_
  exact (draws_emit (mem_firstLeading hinner.within) hindent).map fun first hfirst =>
    drawn_append.2 ⟨drawn_append.2 ⟨hfront, hown⟩, hfirst⟩

theorem draws_addTrailing {text : Text} (htext : Drawn stock text) {comments : List Comment}
    (h : ∀ c ∈ comments, c.text ⊆ stock) {indent : Text} (hindent : Drawn stock indent) :
    Draws stock (addTrailing text comments indent) := by
  unfold addTrailing
  split
  · exact .pure htext
  · split
    · exact (draws_emit h hindent).map fun below hbelow => drawn_append.2 ⟨htext, hbelow⟩
    · refine (yields_unwritten comments).bind fun pending _ => ?_
      refine (draws_inline h hindent).map fun behind hbehind => ?_
      refine drawn_append.2 ⟨drawn_append.2 ⟨htext, hbehind⟩, ?_⟩
      split
      · exact drawn_added (by decide)
      · exact drawn_nil

/-- A text with an indent in front of it, unless it stands where it is. -/
theorem drawn_unless (flush : Bool) {indent text : Text} (hindent : Drawn stock indent)
    (htext : Drawn stock text) : Drawn stock (if flush then text else indent ++ text) := by
  split
  · exact htext
  · exact drawn_append.2 ⟨hindent, htext⟩

/-- A text with a line feed behind it, if one is needed. -/
theorem drawn_ended (isOpen : Bool) {text : Text} (htext : Drawn stock text) :
    Drawn stock (if isOpen then text ++ "\n" else text) := by
  split
  · exact drawn_append.2 ⟨htext, drawn_added (by decide)⟩
  · exact htext

variable (columns : Columns)

section
variable {format : Formatter} (hformat : FormatterDraws stock format)
include hformat

/-- Every renderer draws on the stock. -/
theorem draws_renderer {kind : Kind} {render : Node → Int → Option Node → Render Text}
    (hrender : renderer? columns format kind = some render) {node : Node} (h : node.Stocked stock)
    (level : Int) {terminator : Option Node} (hend : EndsStocked stock terminator) :
    Draws stock (render node level terminator) := by
  -- One case for each row of the table; rows that share a renderer stand side by side.
  unfold renderer? at hrender
  split at hrender
  all_goals cases hrender
  · exact draws_sourceText hformat h.children level true
  · exact draws_moduleDeclaration hformat h level
  · exact draws_continuousAssign columns h hend level
  · exact draws_moduleInstantiation columns h hend level
  iterate 2 exact draws_procedural hformat h level
  · exact draws_seqBlock hformat h level
  iterate 2 exact draws_conditional hformat _ h level (List.forall_mem_nil _)
  · exact draws_caseStatement hformat h level
  · exact draws_caseItem hformat h level
  iterate 2 exact draws_loop hformat h level
  · exact draws_timingControl hformat h level
  iterate 2 exact draws_assignment h level hend
  iterate 3 exact draws_keywordBlock hformat h level
  · exact draws_generateBlock hformat h level
  iterate 6 exact draws_portDeclaration columns h hend level
  iterate 6 exact draws_signalDeclaration columns h hend level
  iterate 2 exact draws_parameterDeclaration columns h hend level

theorem draws_formatBody {inner : Node} (h : inner.Stocked stock) (level : Int)
    {terminator : Option Node} (hend : EndsStocked stock terminator) :
    Draws stock (formatBody columns format inner level terminator) := by
  have hphrase : Draws stock (phraseOf columns format inner level terminator) := by
    unfold phraseOf
    split
    · next render hrender =>
        obtain ⟨kind, -, hrender⟩ := Option.bind_eq_some_iff.1 hrender
        exact draws_renderer columns hformat hrender h level hend
    · exact draws_woven h
  rw [formatBody_eq]
  refine hphrase.bind fun body hbody => ?_
  unfold withTerminator
  split
  · next token =>
      obtain ⟨htoken, hlexeme⟩ := hend token rfl
      split
      · exact .pure hbody
      · refine (draws_inline htoken.comments (drawn_indentFor level)).map fun comments hcomments =>
          drawn_append.2 ⟨drawn_attach hbody ?_ (drawn_indentFor level), hcomments⟩
        exact Lexeme.drawn_spaced token.name hlexeme
  · exact .pure hbody

theorem draws_formatWith (root : Bool) {node : Node} (h : node.Stocked stock) (level : Int)
    {given : Option Node} (hgiven : EndsStocked stock given) :
    Draws stock (formatWith columns format root node level given) := by
  obtain ⟨hinner, hsemicolon, hwrappers⟩ := h.unwrap
  have hend : EndsStocked stock (given <|> node.unwrap.terminator) := by
    cases given with
    | none => exact hsemicolon
    | some token => exact hgiven
  have htrailing := List.forall_mem_append.2
    ⟨hinner.within.trailing, stocked_wrapperTrailing hwrappers⟩
  -- What is done with a body and the comments behind it is the same with comments in front or not.
  have hbody := draws_formatBody columns hformat hinner level hend
  have hindent : Drawn stock (indentFor level) := drawn_indentFor level
  unfold formatWith
  dsimp only
  split
  · refine hbody.bind fun body hbody => ?_
    exact (draws_addTrailing (drawn_unless _ hindent hbody) htrailing hindent).map fun text htext =>
      drawn_ended _ (drawn_append.2 ⟨drawn_nil, htext⟩)
  · refine (draws_headComments hinner hwrappers hindent).bind fun head hhead => ?_
    refine hbody.bind fun body hbody => ?_
    exact (draws_addTrailing (drawn_unless _ hindent hbody) htrailing hindent).map fun text htext =>
      drawn_ended _ (drawn_append.2 ⟨hhead, htext⟩)

end

/-- The fuel says how far down renderers run; what they write is drawn from the stock anyway. -/
theorem formatterDraws_formatAt (fuel : Nat) : FormatterDraws stock (formatAt columns fuel) := by
  induction fuel with
  | zero => exact fun _ _ _ _ _ => .pure drawn_nil
  | succ fuel ih =>
      exact fun node level given h hgiven => draws_formatWith columns ih false h level hgiven

/-- A tree with the comments that are left over. -/
theorem drawn_formatWhole (root : Node) :
    Yields (formatWhole columns root) fun result => Drawn root.stock result.1 := by
  have h := stocked_stock root
  refine (draws_formatWith columns (formatterDraws_formatAt columns root.height) true h 0
    endsStocked_none).bind fun text htext => ?_
  -- The ledger only says which of the tree's own comments are left over.
  refine Yields.bind (P := fun _ => True) (fun _ _ _ _ => trivial) fun ledger _ => ?_
  dsimp only
  split
  · exact .pure htext
  · have hleftovers : ∀ c ∈ ledger.unwritten root.comments, c.text ⊆ root.stock :=
      fun c hc => h.comments c ((Ledger.take_sublist root.comments ledger).subset hc)
    refine (draws_emit hleftovers drawn_nil).map fun below hbelow => drawn_append.2 ⟨?_, hbelow⟩
    split
    · exact htext
    · exact drawn_append.2 ⟨htext, drawn_added (by decide)⟩

end VerilogLayout.Render

import VerilogLayout.Proofs.Origin.Basic
import VerilogLayout.Render.Document

/-!
# Rendering that draws on a stock

`Yields m Q` says that a result of `m` satisfies `Q`, whatever the ledger is, and `Draws stock m`
that what `m` writes is drawn from the stock. The ledger hands out only comments that are passed to
it, so nothing has to be known about it: read `Yields.bind` and `yields_take` first.
-/

namespace VerilogLayout.Render

open Node
open Text (Drawn drawn_nil drawn_append drawn_added drawn_stock drawn_flatMap)

variable {α β : Type} {stock : Text}

/-- Whatever the ledger is at first, a result of the computation satisfies `Q`. -/
def Yields (m : Render α) (Q : α → Prop) : Prop :=
  ∀ ledger a final, m ledger = (.ok a, final) → Q a

/-- What is written is drawn from the stock. -/
def Draws (stock : Text) (m : Render Text) : Prop :=
  Yields m (Drawn stock)

namespace Yields

variable {m : Render α} {f : α → Render β} {P : α → Prop} {Q : β → Prop}

theorem pure {a : α} (h : P a) : Yields (pure a) P := by
  intro ledger b final hrun
  obtain ⟨hb, -⟩ := Prod.mk.inj (show (Except.ok a, ledger) = (.ok b, final) from hrun)
  exact Except.ok.inj hb ▸ h

theorem bind (hm : Yields m P) (hf : ∀ a, P a → Yields (f a) Q) : Yields (m >>= f) Q := by
  intro ledger b final hrun
  obtain ⟨a, middle, hfirst, hsecond⟩ := exists_of_bind hrun
  exact hf a (hm ledger a middle hfirst) middle b final hsecond

/-- What comes of changing a result. -/
theorem map {g : α → β} (hm : Yields m P) (hg : ∀ a, P a → Q (g a)) :
    Yields (do Pure.pure (g (← m))) Q :=
  hm.bind fun a ha => .pure (hg a ha)

end Yields

/-! ## Comments -/

theorem yields_take (comments : List Comment) :
    Yields (take comments) fun given => given ⊆ comments := by
  intro ledger given final hrun
  obtain ⟨hgiven, -⟩ := Prod.mk.inj
    (show (Except.ok (Ledger.take comments ledger).1, (Ledger.take comments ledger).2) =
      (.ok given, final) from hrun)
  exact Except.ok.inj hgiven ▸ (Ledger.take_sublist comments ledger).subset

theorem yields_unwritten (comments : List Comment) : Yields (unwritten comments) fun _ => True :=
  fun _ _ _ _ => trivial

theorem yields_require (node? : Option Node) :
    Yields (require node?) fun node => node? = some node := by
  cases node? with
  | none => exact fun _ _ _ hrun => by cases hrun
  | some node => exact .pure rfl

theorem drawn_emitted {comments : List Comment} (h : ∀ c ∈ comments, c.text ⊆ stock)
    {indent : Text} (hindent : Drawn stock indent) :
    Drawn stock (Ledger.emitted indent comments) :=
  drawn_flatMap fun comment hcomment => drawn_append.2
    ⟨drawn_append.2 ⟨hindent, drawn_stock (h comment hcomment)⟩, drawn_added (by decide)⟩

theorem drawn_inlined {comments : List Comment} (h : ∀ c ∈ comments, c.text ⊆ stock)
    {indent : Text} (hindent : Drawn stock indent) :
    Drawn stock (Ledger.inlined indent comments) := by
  -- What has been written so far is passed on, so the induction is over any such text.
  suffices hgo : ∀ front, Drawn stock front → Drawn stock (Ledger.inlined.go indent front comments)
    from hgo [] drawn_nil
  induction comments with
  | nil => exact fun front hfront => hfront
  | cons comment comments ih =>
      obtain ⟨hcomment, hcomments⟩ := List.forall_mem_cons.1 h
      intro front hfront
      rw [Ledger.inlined.go]
      have hgap :
          Drawn stock (if front.getLast? = some (.char '\n') then indent else (" " : Text)) := by
        split
        · exact hindent
        · exact drawn_added (by decide)
      have htext := drawn_append.2 ⟨drawn_append.2 ⟨hfront, hgap⟩, drawn_stock hcomment⟩
      refine ih hcomments _ ?_
      split
      · exact drawn_append.2 ⟨htext, drawn_added (by decide)⟩
      · exact htext

theorem draws_emit {comments : List Comment} (h : ∀ c ∈ comments, c.text ⊆ stock) {indent : Text}
    (hindent : Drawn stock indent) : Draws stock (emit comments indent) :=
  (yields_take comments).map fun _ hgiven => drawn_emitted (fun c hc => h c (hgiven hc)) hindent

theorem draws_inline {comments : List Comment} (h : ∀ c ∈ comments, c.text ⊆ stock) {indent : Text}
    (hindent : Drawn stock indent) : Draws stock (inline comments indent) :=
  (yields_take comments).map fun _ hgiven => drawn_inlined (fun c hc => h c (hgiven hc)) hindent

/-- What is written at the end of a line is drawn from the comments of its nodes. -/
theorem draws_endOfLine {nodes : List Node} (h : AllStocked stock nodes) (level : Int) :
    Draws stock (endOfLine level nodes) :=
  draws_inline h.commentsAll (Text.drawn_indentFor level)

/-! ## Phrases with their comments -/

theorem drawn_commentsInFront {comments : List Comment} (h : ∀ c ∈ comments, c.text ⊆ stock) :
    Drawn stock (commentsInFront comments) := by
  refine drawn_flatMap fun comment hcomment => drawn_append.2 ⟨drawn_stock (h comment hcomment), ?_⟩
  split
  · exact drawn_added (by decide)
  · exact drawn_added (by decide)

theorem drawn_commentsBehind {comments : List Comment} (h : ∀ c ∈ comments, c.text ⊆ stock) :
    Drawn stock (commentsBehind comments) := by
  refine drawn_flatMap fun comment hcomment => drawn_append.2 ⟨drawn_append.2
    ⟨drawn_added (by decide), drawn_stock (h comment hcomment)⟩, ?_⟩
  split
  · exact drawn_added (by decide)
  · exact drawn_nil

/-- Joining adds spaces only. -/
theorem drawn_joinPieces {pieces : List Text} (h : ∀ piece ∈ pieces, Drawn stock piece) :
    Drawn stock (Spacing.joinPieces pieces) := by
  rw [Drawn, Spacing.ink_joinPieces]
  intro c hc
  obtain ⟨piece, hpiece, hc⟩ := List.mem_flatMap.1 hc
  exact h piece hpiece c hc

mutual
/-- A phrase draws on its comments and leaves. -/
theorem draws_spelledAt (place : Lexeme.Place) :
    (node : Node) → node.Stocked stock → Draws stock (spelledAt take place node)
  | ⟨name, value, [], leading, trailing⟩, h => by
      unfold spelledAt
      refine (yields_take leading).bind fun front hfront => ?_
      refine (yields_take trailing).bind fun behind hbehind => .pure ?_
      have hleaf : Drawn stock (Lexeme.plain name (value.getD [])) :=
        Lexeme.drawn_plain name (h.leaves ⟨name, value, [], leading, trailing⟩
          (by rw [leaves]; exact List.mem_singleton_self _))
      rw [Lexeme.spaced_eq]
      simp only [drawn_append, Text.drawn_spaces, true_and, and_true]
      exact ⟨⟨drawn_commentsInFront fun c hc => h.within.leading c (hfront hc), hleaf⟩,
        drawn_commentsBehind fun c hc => h.within.trailing c (hbehind hc)⟩
  | ⟨name, value, child :: children, leading, trailing⟩, h => by
      unfold spelledAt
      refine (yields_take leading).bind fun front hfront => ?_
      refine (draws_spelledAll name true place.inRange 0 (child :: children) h.children).bind
        fun pieces hpieces => ?_
      refine (yields_take trailing).bind fun behind hbehind => .pure (drawn_joinPieces ?_)
      refine List.forall_mem_append.2 ⟨List.forall_mem_append.2 ⟨?_, hpieces⟩, ?_⟩
      · exact List.forall_mem_singleton.2
          (drawn_commentsInFront fun c hc => h.within.leading c (hfront hc))
      · exact List.forall_mem_singleton.2
          (drawn_commentsBehind fun c hc => h.within.trailing c (hbehind hc))

/-- The phrases inside of a phrase draw on theirs. -/
theorem draws_spelledAll (parent : Text) (isFirst inRange : Bool) (depth : Int) :
    (nodes : List Node) → AllStocked stock nodes →
      Yields (spelledAll take parent isFirst inRange depth nodes) fun pieces =>
        ∀ piece ∈ pieces, Drawn stock piece
  | [], _ => .pure (List.forall_mem_nil _)
  | node :: rest, h => by
      obtain ⟨hnode, hrest⟩ := List.forall_mem_cons.1 h
      unfold spelledAll
      refine (draws_spelledAt _ node hnode).bind fun piece hpiece => ?_
      exact (draws_spelledAll parent false inRange _ rest hrest).map fun pieces hpieces =>
        List.forall_mem_cons.2 ⟨hpiece, hpieces⟩
end

theorem draws_woven {node : Node} (h : node.Stocked stock) : Draws stock (woven node) :=
  (draws_spelledAt _ node h).map fun text htext => htext.of_ink (Text.ink_trimSpaces text)

/-! ## Lines -/

/-- A renderer that is given what stands inside of its phrase. -/
def FormatterDraws (stock : Text) (format : Formatter) : Prop :=
  ∀ node level terminator, node.Stocked stock → EndsStocked stock terminator →
    Draws stock (format node level terminator)

theorem draws_items {format : Formatter} (hformat : FormatterDraws stock format) (level : Int)
    {nodes : List Node} (h : AllStocked stock nodes) : Draws stock (items format level nodes) := by
  induction nodes with
  | nil => exact .pure drawn_nil
  | cons node nodes ih =>
      obtain ⟨hnode, hnodes⟩ := List.forall_mem_cons.1 h
      refine (hformat node level none hnode endsStocked_none).bind fun text htext => ?_
      exact (ih hnodes).map fun rest hrest => drawn_append.2 ⟨htext, hrest⟩

theorem draws_closingLine {token : Option Node} (h : ∀ node ∈ token, node.Stocked stock)
    {text : Text} (htext : Drawn stock text) (level : Int) {extra : List Comment}
    (hextra : ∀ c ∈ extra, c.text ⊆ stock) : Draws stock (closingLine token text level extra) := by
  have hfront : ∀ c ∈ (token.map Node.leading).getD [], c.text ⊆ stock := by
    cases token with
    | none => exact List.forall_mem_nil _
    | some node => exact (h node rfl).within.leading
  have hbehind : ∀ c ∈ (token.map Node.trailing).getD [] ++ extra, c.text ⊆ stock := by
    refine List.forall_mem_append.2 ⟨?_, hextra⟩
    cases token with
    | none => exact List.forall_mem_nil _
    | some node => exact (h node rfl).within.trailing
  refine (draws_emit hfront (Text.drawn_indentFor _)).bind fun front hfront => ?_
  refine (draws_inline hbehind (Text.drawn_indentFor _)).map fun behind hbehind => ?_
  simp only [drawn_append, Text.drawn_indentFor, and_true]
  exact ⟨⟨⟨hfront, htext⟩, hbehind⟩, drawn_added (by decide)⟩

end VerilogLayout.Render

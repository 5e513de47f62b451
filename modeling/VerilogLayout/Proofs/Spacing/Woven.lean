import VerilogLayout.Proofs.Procedural.Ink

/-!
# Phrases with their comments woven in

The pieces of a tree are its leaves and its comments in the order of the document. A ledger lets
some of the comments through, `pass`, and `Weaves pieces text` says that a text consists of such
pieces with blanks between them, each line comment at the end of its line. `woven_complete` is the
result: a phrase is woven of all its leaves and of the comments that the ledger has not seen, and
the ledger has seen all its comments then. It is an induction on the tree in which the ledger is
threaded through; read `Weaves.glue` and `Weaves.trimSpaces` first.
-/

namespace VerilogLayout

open Text

/-- A leaf of a tree or a comment in it. -/
inductive Piece where
  | leaf (node : Node)
  | comment (c : Comment)

namespace Piece

/-- What a piece has to show without blanks. -/
def ink : Piece → Text
  | leaf node => Text.ink node.text
  | comment c => Text.ink c.text

/-- The node of a leaf. -/
def leaf? : Piece → Option Node
  | leaf node => some node
  | comment _ => none

/-- The comment that a piece is. -/
def comment? : Piece → Option Comment
  | leaf _ => none
  | comment c => some c

/-- Comments are their own comments. -/
theorem comments_map (comments : List Comment) :
    (comments.map comment).filterMap comment? = comments := by
  rw [List.filterMap_map]
  exact List.filterMap_some

/-- Comments are no leaves. -/
theorem leaves_map (comments : List Comment) : (comments.map comment).filterMap leaf? = [] := by
  rw [List.filterMap_map]
  exact List.filterMap_eq_nil_iff.2 fun _ _ => rfl

/-- A piece stands as `written` in front of `rest`. A comment without spaces around it stands
there as it is, and a line feed follows it if it is a line comment. -/
structure StandsAs (piece : Piece) (written rest : Text) : Prop where
  ink : Text.ink written = piece.ink
  comment : ∀ c ∈ piece.comment?, trimSpaces c.text = c.text →
    written = c.text ∧ (c.isLine → rest.head? = some (.char '\n'))

end Piece

/-- The text consists of the pieces in their order, and of blanks. -/
inductive Weaves : List Piece → Text → Prop where
  | nil : Weaves [] []
  | blank {c pieces text} : isBlank c → Weaves pieces text → Weaves pieces (c :: text)
  | piece {piece written pieces text} : piece.StandsAs written text → Weaves pieces text →
      Weaves (piece :: pieces) (written ++ text)

namespace Node

mutual
/-- The leaves and the comments of a node in the order of the document. -/
def pieces : Node → List Piece
  | ⟨name, value, children, leading, trailing⟩ =>
      leading.map .comment ++
        (match children with
        | [] => [.leaf ⟨name, value, [], leading, trailing⟩]
        | child :: children => pieces child ++ piecesAll children) ++
        trailing.map .comment

/-- The leaves and the comments of nodes in the order of the document. -/
def piecesAll : List Node → List Piece
  | [] => []
  | node :: nodes => pieces node ++ piecesAll nodes
end

end Node

namespace Ledger

/-- The pieces without the comments that the ledger has seen, and the ledger behind them. -/
def pass : List Piece → Ledger → List Piece × Ledger
  | [], ledger => ([], ledger)
  | .leaf node :: rest, ledger =>
      let (kept, ledger) := pass rest ledger
      (.leaf node :: kept, ledger)
  | .comment comment :: rest, ledger =>
      match ledger.see comment with
      | (true, ledger) =>
          let (kept, ledger) := pass rest ledger
          (.comment comment :: kept, ledger)
      | (false, ledger) => pass rest ledger

/-- A leaf passes. -/
theorem pass_leaf (node : Node) (rest : List Piece) (ledger : Ledger) :
    pass (.leaf node :: rest) ledger =
      (.leaf node :: (pass rest ledger).1, (pass rest ledger).2) :=
  rfl

/-- A comment passes if the ledger has not seen it. -/
theorem pass_comment (comment : Comment) (rest : List Piece) (ledger : Ledger) :
    pass (.comment comment :: rest) ledger =
      if (ledger.see comment).1 then
        (.comment comment :: (pass rest (ledger.see comment).2).1,
          (pass rest (ledger.see comment).2).2)
      else
        pass rest (ledger.see comment).2 := by
  rw [pass]
  rcases ledger.see comment with ⟨_ | _, next⟩ <;> rfl

/-- Pieces pass one after the other. -/
theorem pass_append (pieces others : List Piece) (ledger : Ledger) :
    pass (pieces ++ others) ledger =
      ((pass pieces ledger).1 ++ (pass others (pass pieces ledger).2).1,
        (pass others (pass pieces ledger).2).2) := by
  induction pieces generalizing ledger with
  | nil => rfl
  | cons piece rest ih =>
      cases piece with
      | leaf node => rw [List.cons_append, pass_leaf, pass_leaf, ih]; rfl
      | comment c =>
          rw [List.cons_append, pass_comment, pass_comment, ih]
          split <;> rfl

/-- Comments pass as far as they are taken. -/
theorem pass_comments (comments : List Comment) (ledger : Ledger) :
    pass (comments.map .comment) ledger =
      ((take comments ledger).1.map .comment, (take comments ledger).2) := by
  induction comments generalizing ledger with
  | nil => rfl
  | cons comment rest ih =>
      rw [List.map_cons, pass_comment, take_cons, ih]
      split <;> rfl

/-- A ledger lets the comments pass that it would hand out. -/
theorem take_comments (pieces : List Piece) (ledger : Ledger) :
    take (pieces.filterMap Piece.comment?) ledger =
      ((pass pieces ledger).1.filterMap Piece.comment?, (pass pieces ledger).2) := by
  induction pieces generalizing ledger with
  | nil => rfl
  | cons piece rest ih =>
      cases piece with
      | leaf node =>
          rw [pass_leaf]
          exact ih ledger
      | comment c =>
          have hcomment : (Piece.comment c :: rest).filterMap Piece.comment? =
              c :: rest.filterMap Piece.comment? := rfl
          rw [hcomment, take_cons, pass_comment, ih]
          split <;> rfl

/-- All leaves pass. -/
theorem leaves_pass (pieces : List Piece) (ledger : Ledger) :
    (pass pieces ledger).1.filterMap Piece.leaf? = pieces.filterMap Piece.leaf? := by
  induction pieces generalizing ledger with
  | nil => rfl
  | cons piece rest ih =>
      cases piece with
      | leaf node => exact congrArg (node :: ·) (ih ledger)
      | comment c =>
          rw [pass_comment]
          split <;> exact ih _

end Ledger

/-- A text without spaces around it does not begin with one. -/
theorem Text.head?_of_trimSpaces {text : Text} (h : trimSpaces text = text) :
    text.head? ≠ some (.char ' ') := by
  intro hhead
  obtain ⟨rest, rfl⟩ := List.head?_eq_some_iff.1 hhead
  have hlength : (trimSpaces (.char ' ' :: rest)).length ≤ rest.length := by
    rw [trimSpaces, trimWhile, List.dropWhile_cons_of_pos rfl]
    exact (dropRightWhile_isPrefix _ _).length_le.trans (List.dropWhile_sublist _).length_le
  rw [h, List.length_cons] at hlength
  omega

/-- A text without spaces around it does not end in one. -/
theorem Text.getLast?_of_trimSpaces {text : Text} (h : trimSpaces text = text) :
    text.getLast? ≠ some (.char ' ') := by
  intro hlast
  rw [← h, trimSpaces, trimWhile, dropRightWhile, List.getLast?_reverse] at hlast
  have hstop := List.head?_dropWhile_not (· == .char ' ') (text.dropWhile (· == .char ' ')).reverse
  rw [hlast] at hstop
  exact absurd hstop (by decide)

namespace Weaves

variable {pieces others : List Piece} {text other : Text}

theorem append (h : Weaves pieces text) (hother : Weaves others other) :
    Weaves (pieces ++ others) (text ++ other) := by
  induction h with
  | nil => exact hother
  | blank hblank _ ih => exact .blank hblank ih
  | @piece piece written rest text hpiece _ ih =>
      rw [List.append_assoc]
      refine .piece ⟨hpiece.ink, fun comment hmem htrimmed => ?_⟩ ih
      obtain ⟨hwritten, hfeed⟩ := hpiece.comment comment hmem htrimmed
      exact ⟨hwritten, fun hline => by simp [hfeed hline]⟩

/-- Pieces are glued with a space at most. -/
theorem glue (h : Weaves pieces text) (hother : Weaves others other) :
    Weaves (pieces ++ others) (Spacing.glue text other) := by
  unfold Spacing.glue
  split
  · rw [List.append_assoc]
    exact h.append (.blank rfl hother)
  · exact h.append hother

/-- A text that is woven of pieces has their ink. -/
theorem ink_eq (h : Weaves pieces text) : ink text = pieces.flatMap Piece.ink := by
  induction h with
  | nil => rfl
  | blank hblank _ ih => rw [← List.singleton_append, ink_append, ih, ink_eq_nil (by simpa)]; rfl
  | piece hpiece _ ih => rw [ink_append, ih, hpiece.ink, List.flatMap_cons]

/-- A line feed stands directly behind a line comment. -/
theorem line_infix (h : Weaves pieces text) {comment : Comment}
    (hmem : comment ∈ pieces.filterMap Piece.comment?) (hline : comment.isLine)
    (htrimmed : trimSpaces comment.text = comment.text) :
    comment.text ++ [.char '\n'] <:+: text := by
  induction h with
  | nil => cases hmem
  | blank _ _ ih => exact (ih hmem).trans (List.suffix_cons _ _).isInfix
  | @piece piece written pieces rest hpiece _ ih =>
      rw [← List.singleton_append, List.filterMap_append, List.mem_append] at hmem
      rcases hmem with hmem | hmem
      · have hfirst : comment ∈ piece.comment? := by
          obtain ⟨found, hfound, hcomment⟩ := List.mem_filterMap.1 hmem
          rwa [List.mem_singleton.1 hfound] at hcomment
        obtain ⟨rfl, hfeed⟩ := hpiece.comment comment hfirst htrimmed
        obtain ⟨back, rfl⟩ := List.head?_eq_some_iff.1 (hfeed hline)
        exact ⟨[], back, by simp⟩
      · exact (ih hmem).trans (List.suffix_append _ _).isInfix

/-- A space in front belongs to no comment that has none around it. -/
theorem of_space_cons (h : Weaves pieces (.char ' ' :: text)) : Weaves pieces text := by
  generalize hall : .char ' ' :: text = all at h
  induction h with
  | nil => cases hall
  | blank _ hrest _ =>
      obtain ⟨-, rfl⟩ := List.cons.inj hall
      exact hrest
  | @piece piece written pieces rest hpiece hrest ih =>
      cases written with
      | nil =>
          show Weaves (piece :: pieces) ([] ++ text)
          refine .piece ⟨hpiece.ink, fun c hmem htrimmed => ?_⟩ (ih hall)
          obtain ⟨hwritten, hfeed⟩ := hpiece.comment c hmem htrimmed
          refine ⟨hwritten, fun hline => ?_⟩
          have hhead := hfeed hline
          rw [← (show .char ' ' :: text = rest from hall)] at hhead
          cases hhead
      | cons c written =>
          obtain ⟨rfl, rfl⟩ := List.cons.inj hall
          refine .piece ⟨hpiece.ink, fun c hmem htrimmed => ?_⟩ hrest
          obtain ⟨hwritten, -⟩ := hpiece.comment c hmem htrimmed
          exact absurd (hwritten ▸ rfl) (head?_of_trimSpaces htrimmed)

/-- A space behind belongs to no comment that has none around it. -/
theorem of_append_space (h : Weaves pieces (text ++ " ")) : Weaves pieces text := by
  generalize hall : text ++ " " = all at h
  induction h generalizing text with
  | nil => simp at hall
  | @blank c pieces rest hblank hrest ih =>
      cases text with
      | nil =>
          obtain ⟨-, rfl⟩ := List.cons.inj hall
          exact hrest
      | cons d text =>
          obtain ⟨rfl, hback⟩ := List.cons.inj hall
          exact .blank hblank (ih hback)
  | @piece piece written pieces rest hpiece hrest ih =>
      rcases List.eq_nil_or_concat rest with rfl | ⟨part, d, rfl⟩
      -- The space is the end of the piece.
      · rw [List.append_nil] at hall
        subst hall
        have hink : ink text = piece.ink := by
          rw [← hpiece.ink, ink_append, ink_space, List.append_nil]
        rw [← List.append_nil text]
        refine .piece ⟨hink, fun c hmem htrimmed => ?_⟩ hrest
        obtain ⟨hwritten, -⟩ := hpiece.comment c hmem htrimmed
        exact absurd (hwritten ▸ List.getLast?_concat) (getLast?_of_trimSpaces htrimmed)
      · rw [List.concat_eq_append, ← List.append_assoc] at hall
        obtain ⟨rfl, hd⟩ := List.append_inj' hall rfl
        obtain rfl : ' ' = d := (List.cons.inj hd).1
        refine .piece ⟨hpiece.ink, fun c hmem htrimmed => ?_⟩ (ih List.concat_eq_append.symm)
        obtain ⟨hwritten, hfeed⟩ := hpiece.comment c hmem htrimmed
        refine ⟨hwritten, fun hline => ?_⟩
        have hhead := hfeed hline
        rw [List.concat_eq_append] at hhead
        cases part with
        | nil => cases hhead
        | cons => exact hhead

/-- Trimming takes no part of a comment that has no spaces around it. -/
theorem trimSpaces (h : Weaves pieces text) : Weaves pieces (trimSpaces text) := by
  have hfront : ∀ {spaces text : Text}, (∀ c ∈ spaces, (c == ' ') = true) →
      Weaves pieces (spaces ++ text) → Weaves pieces text := by
    intro spaces text hspaces h
    induction spaces with
    | nil => exact h
    | cons c rest ih =>
        obtain ⟨hc, hrest⟩ := List.forall_mem_cons.1 hspaces
        obtain rfl := eq_of_beq hc
        exact ih hrest h.of_space_cons
  have hback : ∀ {spaces text : Text}, (∀ c ∈ spaces, (c == ' ') = true) →
      Weaves pieces (text ++ spaces) → Weaves pieces text := by
    intro spaces text hspaces h
    induction spaces generalizing text with
    | nil => simpa using h
    | cons c rest ih =>
        obtain ⟨hc, hrest⟩ := List.forall_mem_cons.1 hspaces
        obtain rfl := eq_of_beq hc
        refine of_append_space (ih hrest ?_)
        rw [List.append_assoc]
        exact h
  obtain ⟨tail, htext, htail⟩ :=
    exists_dropRightWhile_append (· == .char ' ') (text.dropWhile (· == .char ' '))
  rw [← List.takeWhile_append_dropWhile (p := (· == .char ' ')) (l := text)] at h
  have hrest := hfront (fun c hc => (List.mem_takeWhile_imp hc : _)) h
  rw [← htext] at hrest
  exact hback htail hrest

end Weaves

namespace Node

/-! ## Pieces -/

mutual
/-- The comments among the pieces of a node are its comments. -/
theorem comments_pieces : (node : Node) → node.pieces.filterMap Piece.comment? = node.comments
  | ⟨name, value, [], leading, trailing⟩ => by
      rw [pieces, comments, List.filterMap_append, List.filterMap_append, Piece.comments_map,
        Piece.comments_map, commentsAll]
      rfl
  | ⟨name, value, child :: children, leading, trailing⟩ => by
      rw [pieces, comments, List.filterMap_append, List.filterMap_append, Piece.comments_map,
        Piece.comments_map, ← piecesAll, comments_piecesAll]

/-- The comments of the pieces are those of the nodes. -/
theorem comments_piecesAll : (nodes : List Node) →
    (piecesAll nodes).filterMap Piece.comment? = commentsAll nodes
  | [] => rfl
  | node :: rest => by
      rw [piecesAll, List.filterMap_append, comments_pieces node, comments_piecesAll rest,
        commentsAll]
end

mutual
/-- The leaves among the pieces of a node are its leaves. -/
theorem leaves_pieces : (node : Node) → node.pieces.filterMap Piece.leaf? = node.leaves
  | ⟨name, value, [], leading, trailing⟩ => by
      rw [pieces, leaves, List.filterMap_append, List.filterMap_append, Piece.leaves_map,
        Piece.leaves_map]
      rfl
  | ⟨name, value, child :: children, leading, trailing⟩ => by
      have hchildren := leaves_piecesAll (child :: children)
      rw [pieces, leaves, List.filterMap_append, List.filterMap_append, Piece.leaves_map,
        Piece.leaves_map, ← piecesAll, hchildren, leavesAll, List.nil_append, List.append_nil]

/-- The leaves of the pieces are those of the nodes. -/
theorem leaves_piecesAll : (nodes : List Node) →
    (piecesAll nodes).filterMap Piece.leaf? = leavesAll nodes
  | [] => rfl
  | node :: rest => by
      rw [piecesAll, List.filterMap_append, leaves_pieces node, leaves_piecesAll rest, leavesAll]
end

/-! ## Phrases -/

/-- A leaf shows its lexeme wherever it stands. -/
theorem weaves_leaf (place : Lexeme.Place) (name : Text) (value : Option Text)
    (leading trailing : List Comment) :
    Weaves [.leaf ⟨name, value, [], leading, trailing⟩]
      (Lexeme.spaced place name (value.getD [])) := by
  have hink := ink_spelledAt place ⟨name, value, [], leading, trailing⟩
  rw [leaves, inkOf_cons, inkOf_nil, List.append_nil] at hink
  have hspelled : Id.run (spelledAt (fun _ => pure []) place ⟨name, value, [], leading, trailing⟩) =
      Lexeme.spaced place name (value.getD []) ++ [] := rfl
  rw [hspelled, List.append_nil] at hink
  rw [← List.append_nil (Lexeme.spaced place name _)]
  exact .piece ⟨hink, nofun⟩ .nil

/-- A comment is woven as it is, in front of a line feed if it is a line comment. -/
theorem weaves_comment {comment : Comment} {pieces : List Piece} {rest : Text}
    (h : Weaves pieces rest) (hfeed : comment.isLine → rest.head? = some (.char '\n')) :
    Weaves (.comment comment :: pieces) (comment.text ++ rest) := by
  refine .piece ⟨rfl, ?_⟩ h
  rintro _ ⟨⟩ -
  exact ⟨rfl, hfeed⟩

/-- The comments in front of a phrase are woven. -/
theorem weaves_commentsInFront (comments : List Comment) :
    Weaves (comments.map .comment) (commentsInFront comments) := by
  induction comments with
  | nil => exact .nil
  | cons comment rest ih =>
      rw [commentsInFront, List.flatMap_cons, List.append_assoc]
      refine weaves_comment ?_ ?_
      · split
        · exact .blank rfl ih
        · exact .blank rfl ih
      · intro hline
        rw [if_pos hline]
        rfl

/-- The comments behind a phrase are woven. -/
theorem weaves_commentsBehind (comments : List Comment) :
    Weaves (comments.map .comment) (commentsBehind comments) := by
  induction comments with
  | nil => exact .nil
  | cons comment rest ih =>
      rw [commentsBehind, List.flatMap_cons, List.append_assoc, List.append_assoc]
      refine .blank rfl (weaves_comment ?_ ?_)
      · split
        · exact .blank rfl ih
        · exact ih
      · intro hline
        rw [if_pos hline]
        rfl

/-- The second computation starts with the ledger that the first one leaves. -/
theorem stateM_bind_apply {α β : Type} (m : StateM Ledger α) (f : α → StateM Ledger β)
    (ledger : Ledger) : (m >>= f) ledger = f (m ledger).1 (m ledger).2 :=
  rfl

mutual
/-- A phrase is woven of the pieces that the ledger lets pass. -/
theorem weaves_spelledAt (place : Lexeme.Place) : (node : Node) → (ledger : Ledger) →
    ∃ text, (spelledAt (fun comments => modifyGet (Ledger.take comments)) place node :
        StateM Ledger Text) ledger = (text, (ledger.pass node.pieces).2) ∧
      Weaves (ledger.pass node.pieces).1 text
  | ⟨name, value, [], leading, trailing⟩, ledger => by
      let front := Ledger.take leading ledger
      let behind := Ledger.take trailing front.2
      rw [pieces, Ledger.pass_append, Ledger.pass_append, Ledger.pass_comments,
        Ledger.pass_comments]
      exact ⟨commentsInFront front.1 ++ Lexeme.spaced place name (value.getD []) ++
        commentsBehind behind.1, rfl, ((weaves_commentsInFront front.1).append
          (weaves_leaf place name value leading trailing)).append
            (weaves_commentsBehind behind.1)⟩
  | ⟨name, value, child :: children, leading, trailing⟩, ledger => by
      let front := Ledger.take leading ledger
      obtain ⟨texts, htexts, hweaves⟩ :=
        weaves_spelledAll name true place.inRange 0 (child :: children) front.2
      let behind := Ledger.take trailing (front.2.pass (piecesAll (child :: children))).2
      rw [pieces, ← piecesAll, Ledger.pass_append, Ledger.pass_append, Ledger.pass_comments,
        Ledger.pass_comments]
      refine ⟨Spacing.joinPieces ([commentsInFront front.1] ++ texts ++ [commentsBehind behind.1]),
        ?_, ?_⟩
      · have hfront : (modifyGet (Ledger.take leading) : StateM Ledger (List Comment)) ledger =
            front := rfl
        rw [spelledAt, stateM_bind_apply, hfront]
        dsimp only
        rw [stateM_bind_apply, htexts]
        rfl
      · rw [Spacing.joinPieces, List.foldl_append, List.singleton_append, List.foldl_cons]
        exact (hweaves _ _ (Weaves.nil.glue (weaves_commentsInFront front.1))).glue
          (weaves_commentsBehind behind.1)

/-- Phrases one behind the other are woven of the pieces that the ledger lets pass. -/
theorem weaves_spelledAll (parent : Text) (isFirst inRange : Bool) (depth : Int) :
    (nodes : List Node) → (ledger : Ledger) →
    ∃ texts, (spelledAll (fun comments => modifyGet (Ledger.take comments)) parent isFirst inRange
        depth nodes : StateM Ledger (List Text)) ledger =
          (texts, (ledger.pass (piecesAll nodes)).2) ∧
      ∀ front text, Weaves front text →
        Weaves (front ++ (ledger.pass (piecesAll nodes)).1) (texts.foldl Spacing.glue text)
  | [], ledger => ⟨[], rfl, fun front text h => by simpa [piecesAll, Ledger.pass] using h⟩
  | node :: rest, ledger => by
      obtain ⟨text, htext, hnode⟩ := weaves_spelledAt
        { parent := some parent
          isFirst
          inRange := inRange || decide (0 < node.depthBefore depth) || node.is Kind.isRangeContext }
        node ledger
      obtain ⟨texts, htexts, hrest⟩ := weaves_spelledAll parent false inRange
        (node.depthAfter (node.depthBefore depth)) rest (ledger.pass node.pieces).2
      rw [piecesAll, Ledger.pass_append]
      refine ⟨text :: texts, ?_, fun front behind hfront => ?_⟩
      · rw [spelledAll, stateM_bind_apply, htext]
        dsimp only
        rw [stateM_bind_apply, htexts]
        rfl
      · rw [List.foldl_cons, ← List.append_assoc]
        exact hrest _ _ (hfront.glue hnode)
end

/-- A phrase is woven of its leaves and of its comments that the ledger has not seen, in the order
of the document. It takes the comments that the ledger would hand out, each line comment at the end
of its line, and the ledger has seen all comments of the phrase then. Without a ledger only the
leaves are written. -/
theorem woven_complete (node : Node) (ledger : Ledger) :
    let written := (ledger.pass node.pieces).1
    let result := node.woven.run ledger
    written.filterMap Piece.leaf? = node.leaves ∧
      (written.filterMap Piece.comment?, result.2) = ledger.take node.comments ∧
      (∀ index, index ∈ result.2.consumed ↔
        index ∈ ledger.consumed ∨ ∃ comment ∈ node.comments, comment.index = index) ∧
      Weaves written result.1 ∧ ink result.1 = written.flatMap Piece.ink ∧
      (∀ comment ∈ written.filterMap Piece.comment?, comment.isLine →
        trimSpaces comment.text = comment.text → comment.text ++ [.char '\n'] <:+: result.1) ∧
      ink node.text = inkOf node.leaves := by
  intro written result
  obtain ⟨text, htext, hweaves⟩ :=
    weaves_spelledAt { inRange := node.is Kind.isRangeContext } node ledger
  have hresult : result = (trimSpaces text, (ledger.pass node.pieces).2) := by
    show node.woven ledger = _
    rw [woven, spelled, stateM_bind_apply, htext]
    rfl
  have htake := Ledger.take_comments node.pieces ledger
  rw [comments_pieces] at htake
  rw [hresult]
  refine ⟨?_, htake.symm, fun index => ?_, hweaves.trimSpaces, hweaves.trimSpaces.ink_eq,
    fun comment hmem hline htrimmed => hweaves.trimSpaces.line_infix hmem hline htrimmed,
    ink_text node⟩
  · rw [Ledger.leaves_pass, leaves_pieces]
  · rw [← Ledger.mem_consumed_take, htake]

end Node
end VerilogLayout

import VerilogLayout.Proofs.Comments.Phrase
import VerilogLayout.Render.Statement

/-!
# Comments that stand in what is written

Two things are proved of the comments that a renderer takes: that they stand in its text, and that a
line feed stands behind each line comment. What renderers do around comments is the same for both,
so they are walked through once, for any `Standing` of comments: a relation to texts, and one to
lines that are still to be ended, with rules for what renderers put side by side and cut off.
`Standing.Writes S m` says that `m` writes a text in which the comments stand that it has taken.
-/

namespace VerilogLayout

namespace Kind

/-- A statement may stand on the line of such a phrase. -/
def inlinesStatement : Kind → Bool
  | .caseItem | .proceduralTimingControlStatement => true
  | _ => false

/-- The renderer of such a phrase may leave its last line open. -/
def leavesLineOpen (kind : Kind) : Bool :=
  kind.writesTerminator || kind.inlinesStatement

/-- The list of ports or parameters in a module's head. -/
def isHeadList : Kind → Bool
  | .moduleParameterPortList | .listOfPortDeclarations => true
  | _ => false

end Kind

namespace Node

/-- The entries of a list in a module's head, with their commas. -/
def headEntries (node : Node) : List Group :=
  groups "," (between node.children (through (indexOf? "(" node.children))
    (node.children.length - 1))

end Node

open Node Render

/-- How comments stand in a text, and in a line that is still to be ended. The rules say how texts
are put together, what may be cut off at their ends, and what stands inside of a node. -/
structure Standing where
  text : List Comment → Text → Prop
  line : List Comment → Text → Prop
  /-- The comments that can be told from what is cut off around them. -/
  isGood : Comment → Prop
  /-- The nodes that may be rendered, each with the terminator that is passed to its renderer. -/
  fits : Node → Option Node → Prop
  code (s : Text) : text [] s
  comment (comment : Comment) {comments : List Comment} {s : Text} :
    (comment.isLine → s.head? = some (.char '\n')) → text comments s →
      text (comment :: comments) (comment.text ++ s)
  append {comments others : List Comment} {s t : Text} :
    text comments s → text others t → text (comments ++ others) (s ++ t)
  /-- A text may be written as a line. -/
  opened {comments : List Comment} {s : Text} : text comments s → line comments s
  append_line {comments others : List Comment} {s t : Text} :
    text comments s → line others t → line (comments ++ others) (s ++ t)
  ended {comments : List Comment} {s : Text} : line comments s → text comments (s ++ "\n")
  inlined (indent : Text) (comments : List Comment) :
    line comments (Ledger.inlined indent comments)
  eq_nil {comments : List Comment} :
    (∀ c ∈ comments, isGood c) → text comments [] → comments = []
  trimSpaces {comments : List Comment} {s : Text} :
    (∀ c ∈ comments, isGood c) → text comments s → text comments (Text.trimSpaces s)
  stripIndent (level : Int) {comments : List Comment} {s : Text} :
    (∀ c ∈ comments, isGood c) → text comments s → text comments (VerilogLayout.stripIndent s level)
  dropLineFeeds {comments : List Comment} {s : Text} :
    (∀ c ∈ comments, isGood c) → text comments s →
      line comments (Text.dropRightWhile (· = .char '\n') s)
  beforeElse (level : Int) {isBlock : Bool} {comments : List Comment} {s : Text} :
    (∀ c ∈ comments, isGood c) → text comments s →
      (isBlock → s.getLast? = some (.char '\n')) → text comments (Render.beforeElse s isBlock level)
  inside {node : Node} {given : Option Node} :
    fits node given → ∀ child ∈ node.unwrap.inner.children, fits child none
  /-- The entries of a list in a module's head are rendered with their commas. -/
  entries {list : Node} : fits list none → list.is Kind.isHeadList →
    ∀ group ∈ list.headEntries, ∀ entry ∈ group.items, fits entry group.separator

namespace Standing

variable {standing : Standing} {comments others : List Comment} {s t : Text}

/-! ## Texts and lines -/

theorem text.append (h : standing.text comments s) (hother : standing.text others t) :
    standing.text (comments ++ others) (s ++ t) :=
  standing.append h hother

theorem text.nil : standing.text [] [] :=
  standing.code []

/-- Code in front of a text. -/
theorem text.after (front : Text) (h : standing.text comments s) :
    standing.text comments (front ++ s) :=
  standing.append (standing.code front) h

/-- Code behind a text. -/
theorem text.before (h : standing.text comments s) (back : Text) :
    standing.text comments (s ++ back) := by
  simpa using standing.append h (standing.code back)

/-- A line below a text. -/
theorem text.append_line (h : standing.text comments s) (hline : standing.line others t) :
    standing.line (comments ++ others) (s ++ t) :=
  standing.append_line h hline

/-- Code in front of a line. -/
theorem line.after (front : Text) (h : standing.line comments s) :
    standing.line comments (front ++ s) :=
  standing.append_line (standing.code front) h

/-- A line that is ended, and what stands below it. -/
theorem line.above (h : standing.line comments s) (hother : standing.text others t) :
    standing.text (comments ++ others) (s ++ ("\n" ++ t)) := by
  rw [← List.append_assoc]
  exact standing.append (standing.ended h) hother

/-- A line that is ended, and the line below it. -/
theorem line.above_line (h : standing.line comments s) (hother : standing.line others t) :
    standing.line (comments ++ others) (s ++ ("\n" ++ t)) := by
  rw [← List.append_assoc]
  exact standing.append_line (standing.ended h) hother

/-- Each text has its own part of the comments. -/
inductive Each (R : List Comment → Text → Prop) : List Comment → List Text → Prop where
  | nil : Each R [] []
  | cons {comments others text texts} :
      R comments text → Each R others texts → Each R (comments ++ others) (text :: texts)

namespace Each

variable {R : List Comment → Text → Prop} {texts more : List Text}

theorem append (h : Each R comments texts) (hmore : Each R others more) :
    Each R (comments ++ others) (texts ++ more) := by
  induction h with
  | nil => exact hmore
  | cons hfirst _ ih =>
      rw [List.append_assoc]
      exact .cons hfirst ih

theorem single (h : R comments s) : Each R comments [s] := by
  simpa using Each.cons h .nil

/-- Lines one below the other. -/
theorem intercalate (h : Each standing.line comments texts) :
    standing.line comments (List.intercalate "\n" texts) := by
  induction h with
  | nil => exact standing.opened .nil
  | @cons comments others text texts hfirst hrest ih =>
      cases texts with
      | nil =>
          cases hrest
          simpa [List.intercalate] using hfirst
      | cons next rest =>
          rw [List.intercalate_cons_cons, List.append_assoc]
          exact hfirst.above_line ih

/-- Pieces of code behind a text. -/
theorem glued (h : Each standing.text comments texts) {front : Text}
    (hfront : standing.text others front) :
    standing.text (others ++ comments) (texts.foldl Spacing.glue front) := by
  induction h generalizing others front with
  | nil => simpa using hfront
  | @cons comments rest text texts hfirst _ ih =>
      have hglue : standing.text (others ++ comments) (Spacing.glue front text) := by
        unfold Spacing.glue
        split
        · exact (hfront.before _).append hfirst
        · exact hfront.append hfirst
      rw [List.foldl_cons, ← List.append_assoc]
      exact ih hglue

theorem joinPieces (h : Each standing.text comments texts) :
    standing.text comments (Spacing.joinPieces texts) :=
  h.glued .nil

end Each

/-! ## Comments -/

variable (standing)

theorem text_emitted (indent : Text) (comments : List Comment) :
    standing.text comments (Ledger.emitted indent comments) := by
  induction comments with
  | nil => exact .nil
  | cons comment comments ih =>
      have hsplit : Ledger.emitted indent (comment :: comments) =
          indent ++ (comment.text ++ ("\n" ++ Ledger.emitted indent comments)) := by
        simp [Ledger.emitted]
      rw [hsplit]
      exact .after indent (standing.comment comment (fun _ => rfl) (ih.after "\n"))

theorem text_commentsInFront (comments : List Comment) :
    standing.text comments (commentsInFront comments) := by
  induction comments with
  | nil => exact .nil
  | cons comment comments ih =>
      have hsplit : commentsInFront (comment :: comments) = comment.text ++
          ((if comment.isLine then ("\n" : Text) else " ") ++ commentsInFront comments) := by
        simp [commentsInFront]
      rw [hsplit]
      refine standing.comment comment (fun hline => ?_) (ih.after _)
      rw [if_pos hline]
      rfl

theorem text_commentsBehind (comments : List Comment) :
    standing.text comments (commentsBehind comments) := by
  induction comments with
  | nil => exact .nil
  | cons comment comments ih =>
      have hsplit : commentsBehind (comment :: comments) = " " ++ (comment.text ++
          ((if comment.isLine then ("\n" : Text) else "") ++ commentsBehind comments)) := by
        simp [commentsBehind]
      rw [hsplit]
      refine .after _ (standing.comment comment (fun hline => ?_) (ih.after _))
      rw [if_pos hline]
      rfl

variable (S : Comment → Prop)

/-- The comments that are taken stand in the text. -/
def Writes (m : Render Text) : Prop :=
  Keeps S m standing.text

/-- The comments that are taken stand in a line that is still to be ended. -/
def WritesLine (m : Render Text) : Prop :=
  Keeps S m standing.line

/-- The comments that are taken stand in the text, whose last line is ended. -/
def WritesLines (m : Render Text) : Prop :=
  Keeps S m fun taken s => standing.text taken s ∧ s.getLast? = some (.char '\n')

/-- A renderer that is given what stands inside of its phrase. -/
def Formats (format : Formatter) : Prop :=
  ∀ node level given, standing.fits node given → Within S node →
    (∀ token ∈ given, Within S token) → standing.Writes S (format node level given)

/-- The children of a node may be rendered, and its comments lie in `S`. -/
structure Holds (node : Node) : Prop where
  fits : ∀ child ∈ node.children, standing.fits child none
  within : Within S node

variable {standing S} {node : Node}

namespace Holds

/-- What stands inside of a node that may be rendered. -/
theorem unwrap {given : Option Node} (h : standing.fits node given) (hnode : Within S node) :
    standing.Holds S node.unwrap.inner :=
  ⟨standing.inside h, (within_unwrap hnode).1⟩

theorem of_mem (h : standing.Holds S node) {child : Node} (hmem : child ∈ node.children) :
    standing.fits child none ∧ Within S child :=
  ⟨h.fits child hmem, h.within.children child hmem⟩

/-- The phrase inside of a child. -/
theorem of_mem_unwrap (h : standing.Holds S node) {child : Node} (hmem : child ∈ node.children) :
    standing.Holds S child.unwrap.inner :=
  .unwrap (h.fits child hmem) (h.within.children child hmem)

end Holds

theorem Writes.writesLine {m : Render Text} (h : standing.Writes S m) : standing.WritesLine S m :=
  h.mono fun _ _ _ htext => standing.opened htext

theorem WritesLines.writes {m : Render Text} (h : standing.WritesLines S m) :
    standing.Writes S m :=
  h.mono fun _ _ _ hlines => hlines.1

/-- Code in front of a line. -/
theorem WritesLine.after {m : Render Text} (hm : standing.WritesLine S m) (front : Text) :
    standing.WritesLine S (do pure (front ++ (← m))) :=
  hm.bind fun taken s hline => .pure (by simpa using hline.after front)

variable (standing) in
theorem writes_pure (s : Text) : standing.Writes S (pure s) :=
  .pure (standing.code s)

section
variable (hS : ∀ c, S c → standing.isGood c)
include hS

/-- The comments that are taken are good. -/
theorem keeps_good {α : Type} {m : Render α} {P : List Comment → α → Prop} (hm : Keeps S m P) :
    Keeps S m fun taken a => (∀ c ∈ taken, standing.isGood c) ∧ P taken a :=
  hm.mono fun _ _ htaken hP => ⟨fun c hc => hS c (htaken c hc), hP⟩

/-- A text that is changed without a loss of the comments in it. -/
theorem Writes.change {m : Render Text} (hm : standing.Writes S m) {f : Text → Text}
    (hf : ∀ taken s, (∀ c ∈ taken, standing.isGood c) → standing.text taken s →
      standing.text taken (f s)) : standing.Writes S (do pure (f (← m))) :=
  (keeps_good hS hm).bind fun taken s htext => .pure (by simpa using hf taken s htext.1 htext.2)

end

variable (standing) in
theorem writes_emit (h : ∀ c ∈ comments, S c) (indent : Text) :
    standing.Writes S (emit comments indent) :=
  (keeps_take h).bind fun taken _ heq =>
    .pure (by simpa [heq] using standing.text_emitted indent taken)

variable (standing) in
theorem writesLine_inline (h : ∀ c ∈ comments, S c) (indent : Text) :
    standing.WritesLine S (inline comments indent) :=
  (keeps_take h).bind fun taken _ heq =>
    .pure (by simpa [heq] using standing.inlined indent taken)

variable (standing) in
/-- What is written at the end of a line are the comments that are taken there. -/
theorem writesLine_endOfLine {nodes : List Node} (h : AllWithin S nodes) (level : Int) :
    standing.WritesLine S (endOfLine level nodes) :=
  standing.writesLine_inline h.commentsAll _

variable (standing) in
/-- The comments of a closing line stand in it, and it ends. -/
theorem writesLines_closingLine {token : Option Node} (h : ∀ node ∈ token, Within S node)
    (text : Text) (level : Int) {extra : List Comment} (hextra : ∀ c ∈ extra, S c) :
    standing.WritesLines S (closingLine token text level extra) := by
  have hfront : ∀ c ∈ (token.map Node.leading).getD [], S c := by
    cases token with
    | none => simp
    | some node => exact (h node rfl).leading
  have hbehind : ∀ c ∈ (token.map Node.trailing).getD [] ++ extra, S c := by
    cases token with
    | none => simpa using hextra
    | some node => exact List.forall_mem_append.2 ⟨(h node rfl).trailing, hextra⟩
  refine (standing.writes_emit hfront _).bind fun first front hfront => ?_
  refine (standing.writesLine_inline hbehind _).bind fun second behind hbehind =>
    .pure ⟨?_, by simp⟩
  simp only [List.append_assoc, List.append_nil]
  exact hfront.append (.after _ (.after text (standing.ended hbehind)))

/-! ## Phrases -/

mutual
/-- A phrase writes the comments around its tokens. -/
theorem writes_spelledAt (place : Lexeme.Place) :
    (node : Node) → Within S node → standing.Writes S (spelledAt take place node)
  | ⟨name, value, children, leading, trailing⟩, h => by
      unfold spelledAt
      refine (keeps_take h.leading).bind fun first given hgiven => ?_
      subst hgiven
      have hfront := standing.text_commentsInFront given
      cases children with
      | nil =>
          refine (keeps_take h.trailing).bind fun second given' hgiven' => .pure ?_
          subst hgiven'
          simpa using (hfront.before _).append (standing.text_commentsBehind given')
      | cons child children =>
          refine (writes_spelledAll name true place.inRange 0 (child :: children)
            h.children).bind fun middle pieces hpieces => ?_
          refine (keeps_take h.trailing).bind fun second given' hgiven' => .pure ?_
          subst hgiven'
          have hall := ((Each.single hfront).append hpieces).append
            (.single (standing.text_commentsBehind given'))
          simpa using hall.joinPieces

/-- The phrases inside of a phrase write their comments, each its own. -/
theorem writes_spelledAll (parent : Text) (isFirst inRange : Bool) (depth : Int) :
    (nodes : List Node) → AllWithin S nodes →
      Keeps S (spelledAll take parent isFirst inRange depth nodes) (Each standing.text)
  | [], _ => .pure .nil
  | node :: rest, h => by
      obtain ⟨hnode, hrest⟩ := allWithin_cons.1 h
      unfold spelledAll
      refine (writes_spelledAt _ node hnode).bind fun first piece hpiece => ?_
      refine (writes_spelledAll parent false inRange _ rest hrest).bind
        fun second pieces hpieces => .pure ?_
      simpa using Each.cons hpiece hpieces
end

variable (standing) in
/-- A phrase with its comments woven in. -/
theorem writes_woven (hS : ∀ c, S c → standing.isGood c) (h : Within S node) :
    standing.Writes S (Render.woven node) :=
  (writes_spelledAt _ node h).change hS fun _ _ => standing.trimSpaces

/-- The phrases of nodes at a level write their comments one behind the other. -/
theorem writes_items {format : Formatter} (hformat : standing.Formats S format) (level : Int)
    {nodes : List Node} (h : ∀ node ∈ nodes, standing.fits node none ∧ Within S node) :
    standing.Writes S (items format level nodes) := by
  induction nodes with
  | nil => exact standing.writes_pure _
  | cons node nodes ih =>
      obtain ⟨⟨hfits, hnode⟩, hnodes⟩ := List.forall_mem_cons.1 h
      refine (hformat node level none hfits hnode (by simp)).bind fun first s htext => ?_
      refine (ih hnodes).bind fun others rest hrest => .pure ?_
      simpa using htext.append hrest

end Standing
end VerilogLayout

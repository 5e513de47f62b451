import Mathlib.Data.List.Forall2
import VerilogLayout.Proofs.Comments.EndMark
import VerilogLayout.Proofs.LineEnd.Tidy
import VerilogLayout.Render.Document

/-!
# A tree ends its line comments

Comments reach a line from its renderer, from the terminator and from the node and its wrappers,
each by a call that looks at its own comments only. `closes_formatWith` says that a tidy node is
closed nevertheless, and `closed_of_formatTree` that nothing stands behind a line comment in the
text of a tidy tree. Other trees can put one comment behind another, see `swallowingTree`.
-/

namespace VerilogLayout

/-- Closed, but for the end of the last line if that may be open. -/
def ClosedUnless (isOpen : Bool) (comments : List Comment) (text : Text) : Prop :=
  match isOpen with
  | true => Closed comments (text ++ "\n")
  | false => Closed comments text

namespace ClosedUnless

variable {isOpen : Bool} {comments others : List Comment} {text other : Text}

/-- What is closed is so whether or not its line may be open. -/
theorem of_closed (h : Closed comments text) : ClosedUnless isOpen comments text := by
  cases isOpen with
  | true => exact h.before _
  | false => exact h

/-- What is said of a text whose last line may be open. -/
theorem of_textUnless (h : Standing.closed.textUnless isOpen comments text) :
    ClosedUnless isOpen comments text := by
  cases isOpen with
  | true => exact h
  | false => exact h

/-- A text whose line may be open is closed once the line is ended. -/
theorem ended (h : ClosedUnless isOpen comments text) : Closed comments (text ++ "\n") := by
  cases isOpen with
  | true => exact h
  | false => exact Closed.before h _

theorem mono {isOpen' : Bool} (h : ClosedUnless isOpen comments text)
    (hopen : isOpen → isOpen') : ClosedUnless isOpen' comments text := by
  cases isOpen with
  | false => exact of_closed h
  | true => exact hopen rfl ▸ h

/-- Below a closed text only the last line may be open. -/
theorem above (h : Closed comments text) (hother : ClosedUnless isOpen others other) :
    ClosedUnless isOpen (comments ++ others) (text ++ other) := by
  cases isOpen with
  | true =>
      show Closed _ (text ++ other ++ "\n")
      rw [List.append_assoc]
      exact h.append hother
  | false => exact h.append hother

/-- Code in front leaves a text as closed as it is. -/
theorem after (h : ClosedUnless isOpen comments text) (front : Text) :
    ClosedUnless isOpen comments (front ++ text) :=
  above (.none front) h

/-- A line that may be open is ended, unless it is already. -/
theorem closed_ended (hdelimited : ∀ c ∈ comments, c.IsDelimited)
    (h : ClosedUnless isOpen comments text) {isMajor : Bool} (hmajor : isOpen → isMajor) :
    Closed comments
      (if isMajor && !text.isEmpty && !Node.endsLine text then text ++ "\n" else text) := by
  split
  · exact h.ended
  · next hkept =>
      cases isOpen with
      | false => exact h
      | true =>
          rw [hmajor rfl, Bool.true_and, Bool.and_eq_true, not_and_or] at hkept
          rcases hkept with hempty | hends
          · obtain rfl : text = [] := by simpa using hempty
            obtain rfl := Closed.eq_nil hdelimited h (by decide)
            exact .nil
          · obtain ⟨front, rfl⟩ := List.isSuffixOf_iff_suffix.1
              (show Text.endsWith text "\n" = true by simpa [Node.endsLine] using hends)
            have hbreak : Closed comments (front ++ .char '\n' :: ("\n" : Text)) := by
              simpa [ClosedUnless] using h
            exact hbreak.of_append_break hdelimited (by decide)

end ClosedUnless

namespace Ledger

/-- What is unwritten behind a comment that has been written. -/
theorem filter_isConsumed_cons (comment : Comment) (ledger : Ledger) (comments : List Comment) :
    (comments.filter fun c => !(⟨comment :: ledger.written⟩ : Ledger).isConsumed c.index) =
      (comments.filter fun c => !ledger.isConsumed c.index).filter (·.index != comment.index) := by
  rw [List.filter_filter]
  congr 1
  funext c
  rw [isConsumed, consumed_cons, List.contains_cons, Bool.not_or]
  rfl

/-- Only comments that were unwritten are taken. -/
theorem take_sublist_filter (comments : List Comment) (ledger : Ledger) :
    (take comments ledger).1.Sublist (comments.filter fun c => !ledger.isConsumed c.index) := by
  induction comments generalizing ledger with
  | nil => exact .slnil
  | cons comment rest ih =>
      unfold take see
      by_cases hseen : ledger.isConsumed comment.index
      · simpa only [hseen, if_true, List.filter_cons, Bool.not_true, Bool.false_eq_true, if_false]
          using ih ledger
      · simp only [hseen, Bool.false_eq_true, if_false, List.filter_cons, Bool.not_false, if_true]
        have hmore := ih ⟨comment :: ledger.written⟩
        rw [filter_isConsumed_cons] at hmore
        exact (hmore.trans List.filter_sublist).cons_cons comment

/-- The last of the unwritten comments is taken last, unless it repeats the index of one in front
of it. -/
theorem getLast?_take {comments : List Comment} (ledger : Ledger)
    (hrepeats : comments.Pairwise fun first other => first.index = other.index → other.isLine)
    {last : Comment} (hline : ¬ last.isLine)
    (hlast : (comments.filter fun c => !ledger.isConsumed c.index).getLast? = some last) :
    (take comments ledger).1.getLast? = some last := by
  -- Taking a comment marks its index as written, so the ledger changes along the list.
  induction comments generalizing ledger with
  | nil => cases hlast
  | cons comment rest ih =>
      obtain ⟨hfirst, hrest⟩ := List.pairwise_cons.1 hrepeats
      unfold take see
      by_cases hseen : ledger.isConsumed comment.index
      · simp only [hseen, if_true]
        exact ih ledger hrest (by simpa [hseen] using hlast)
      · simp only [hseen, Bool.false_eq_true, if_false]
        simp only [List.filter_cons, hseen, Bool.not_false, if_true] at hlast
        rw [List.getLast?_cons] at hlast ⊢
        cases hmore : (rest.filter fun c => !ledger.isConsumed c.index).getLast? with
        | none =>
            have hnil := take_sublist_filter rest ⟨comment :: ledger.written⟩
            rw [filter_isConsumed_cons, List.getLast?_eq_none_iff.1 hmore, List.filter_nil,
              List.sublist_nil] at hnil
            rw [hnil]
            rwa [hmore] at hlast
        | some found =>
            obtain rfl : found = last := by
              rw [hmore] at hlast
              exact Option.some.inj hlast
            have hne : found.index ≠ comment.index := by
              have hmem := List.mem_of_mem_filter (List.mem_of_getLast? hmore)
              exact fun heq => hline (hfirst found hmem heq.symm)
            obtain ⟨front, hfront⟩ := List.getLast?_eq_some_iff.1 hmore
            rw [ih ⟨comment :: ledger.written⟩ hrest]
            · rfl
            · rw [filter_isConsumed_cons, hfront, List.filter_append]
              simp [hne]

end Ledger

namespace Render

open Node
open Standing (closed)

variable {S T : Comment → Prop}

/-- What is kept of some comments is kept of more. -/
theorem Keeps.weaken {α : Type} {m : Render α} {P : List Comment → α → Prop} (hm : Keeps T m P)
    (h : ∀ c, T c → S c) : Keeps S m P := by
  intro ledger a final hrun
  obtain ⟨hdistinct, taken, hwritten, hT, hP⟩ := hm ledger a final hrun
  exact ⟨hdistinct, taken, hwritten, fun c hc => h c (hT c hc), hP⟩

/-- Without line comments no line is left open. -/
theorem writes_of_unlined (hS : ∀ c, S c → c.IsDelimited) {m : Render Text}
    (hm : closed.WritesLine (fun c => S c ∧ ¬ c.isLine) m) : closed.Writes S m := by
  have hclosed : closed.Writes (fun c => S c ∧ ¬ c.isLine) m := by
    refine hm.mono fun taken text htaken htext => ?_
    exact Closed.of_append_unlined (fun c hc => hS c (htaken c hc).1) htext (by decide)
      fun last hlast => (htaken last (List.mem_of_getLast? hlast)).2
  exact hclosed.weaken fun c hc => hc.1

theorem within_unlined {node : Node} (h : Within S node) (hline : node.holdsLineComment = false) :
    Within (fun c => S c ∧ ¬ c.isLine) node :=
  fun c hc => ⟨h c hc, List.any_eq_false.1 hline c hc⟩

/-- What holds no line comment holds other comments only. -/
theorem holds_unlined {node : Node} (h : closed.Holds S node)
    (hline : node.holdsLineComment = false) : closed.Holds (fun c => S c ∧ ¬ c.isLine) node :=
  ⟨h.fits, within_unlined h.within hline⟩

/-- The comments of a token leave the line open if a line comment is among them. -/
theorem closesUnless_inline (hS : ∀ c, S c → c.IsDelimited) {token : Node} (h : Within S token)
    (indent : Text) :
    Keeps S (inline token.comments indent) (ClosedUnless token.holdsLineComment) := by
  cases hline : token.holdsLineComment with
  | true => exact closed.writesLine_inline h indent
  | false => exact writes_of_unlined hS (closed.writesLine_inline (within_unlined h hline) indent)

theorem closed_attach {taken : List Comment} (hdelimited : ∀ c ∈ taken, c.IsDelimited)
    {text : Text} (h : Closed taken text) (terminator indent : Text) :
    Closed taken (attach text terminator indent) := by
  unfold attach
  split
  · exact h.before _
  · next hline =>
      split
      · exact (h.before _).before _
      · next hslashes =>
          obtain ⟨front, rfl⟩ := List.isSuffixOf_iff_suffix.1
            (show Text.endsWith text "\n" = true by simpa [endsLine] using hline)
          have hfront : Text.dropLast (front ++ "\n") = front := List.dropLast_concat
          rw [lastLine, hfront, Bool.not_eq_true] at hslashes
          rw [hfront]
          exact ((h.of_append_lineFeed hdelimited hslashes).before _).before _

/-- The comments that are taken for a line are closed, and a line feed is put behind the last one if
that is a line comment. -/
theorem closed_trailing {comments : List Comment} (hdelimited : ∀ c ∈ comments, c.IsDelimited)
    (hrepeats : comments.Pairwise fun first other => first.index = other.index → other.isLine)
    (ledger : Ledger) (indent : Text) :
    Closed (Ledger.take comments ledger).1 (Ledger.inlined indent (Ledger.take comments ledger).1 ++
      if (comments.filter fun c => !ledger.isConsumed c.index).getLast?.any Comment.isLine then
        ("\n" : Text) else "") := by
  have hinlined := closed_inlined indent (Ledger.take comments ledger).1
  have htaken : ∀ c ∈ (Ledger.take comments ledger).1, c.IsDelimited :=
    fun c hc => hdelimited c ((Ledger.take_sublist comments ledger).subset hc)
  split
  · exact hinlined
  · next hblock =>
      refine (hinlined.of_append_unlined htaken (by decide) fun last hlast => ?_).before _
      cases hpending : (comments.filter fun c => !ledger.isConsumed c.index).getLast? with
      | none =>
          have hnil := Ledger.take_sublist_filter comments ledger
          rw [List.getLast?_eq_none_iff.1 hpending, List.sublist_nil] at hnil
          rw [hnil] at hlast
          cases hlast
      | some found =>
          rw [hpending, Option.any_some] at hblock
          rw [Ledger.getLast?_take ledger hrepeats hblock hpending] at hlast
          obtain rfl := Option.some.inj hlast
          exact hblock

/-- Comments behind a text that is closed; there are none behind a line that may be open. -/
theorem closes_addTrailing (hS : ∀ c, S c → c.IsDelimited) {isOpen : Bool}
    {done comments : List Comment} {text : Text} (htext : ClosedUnless isOpen done text)
    (hopen : isOpen → comments = []) (h : ∀ c ∈ comments, S c)
    (hrepeats : comments.Pairwise fun first other => first.index = other.index → other.isLine)
    (indent : Text) :
    Keeps S (addTrailing text comments indent) fun taken result =>
      ClosedUnless isOpen (done ++ taken) result := by
  unfold addTrailing
  split
  · exact .pure (by rwa [List.append_nil])
  · next hsome =>
      obtain rfl : isOpen = false := by
        cases isOpen with
        | false => rfl
        | true => exact absurd (List.isEmpty_iff.2 (hopen rfl)) hsome
      split
      · refine (closed.writes_emit h indent).bind fun taken below hbelow => .pure ?_
        rw [List.append_nil]
        exact Closed.append htext hbelow
      · intro ledger result final hrun
        obtain ⟨hresult, rfl⟩ := Prod.mk.inj
          (show (Except.ok (text ++ Ledger.inlined indent (Ledger.take comments ledger).1 ++
            if (comments.filter fun c => !ledger.isConsumed c.index).getLast?.any Comment.isLine
              then ("\n" : Text) else ""), (Ledger.take comments ledger).2) =
                (.ok result, final) from hrun)
        obtain rfl := Except.ok.inj hresult
        refine ⟨fun hd => hd.take comments, _, Ledger.written_take comments ledger,
          fun c hc => h c ((Ledger.take_sublist comments ledger).subset hc), ?_⟩
        rw [List.append_assoc]
        exact Closed.append htext
          (closed_trailing (fun c hc => hS c (h c hc)) hrepeats ledger indent)

/-- A formatter closes what is tidy, whichever delimited comments there are. -/
def FormatterCloses (format : Formatter) : Prop :=
  ∀ ⦃S : Comment → Prop⦄, (∀ c, S c → c.IsDelimited) → closed.Formats S format

variable (hS : ∀ c, S c → c.IsDelimited) (columns : Columns) {format : Formatter}
  (hformat : FormatterCloses format)
include hS hformat

/-- A phrase without line comments leaves no line open, whichever its kind is. -/
theorem closes_phraseOf {inner : Node} (h : closed.Holds S inner) (level : Int)
    {terminator : Option Node} (hterminator : ∀ token ∈ terminator, Within S token) {isOpen : Bool}
    (hopen : isOpen = false → inner.is Kind.leavesLineOpen → inner.holdsLineComment = false ∧
      (inner.is Kind.writesTerminator → terminator.any holdsLineComment = false)) :
    Keeps S (phraseOf columns format inner level terminator) (ClosedUnless isOpen) := by
  unfold phraseOf
  split
  · next render hrender =>
      obtain ⟨kind, hkind, hrender⟩ := Option.bind_eq_some_iff.1 hrender
      have hclosed := closed.keeps_renderer hS columns (hformat hS) hrender h level
        fun _ => hterminator
      cases isOpen with
      | true => exact hclosed.mono fun _ _ _ htext => (ClosedUnless.of_textUnless htext).ended
      | false =>
          cases hleaves : kind.leavesLineOpen with
          | false =>
              rw [hleaves] at hclosed
              exact hclosed
          | true =>
              -- The renderer is run with the block comments alone, which leave no line open.
              obtain ⟨hline, hend⟩ := hopen rfl (by rw [is, hkind]; exact hleaves)
              have hblock : ∀ c, S c ∧ ¬ c.isLine → c.IsDelimited := fun c hc => hS c hc.1
              refine writes_of_unlined hS (Keeps.mono (closed.keeps_renderer hblock columns
                (hformat hblock) hrender (holds_unlined h hline) level fun hwrites token htoken =>
                  ?_) fun _ _ _ htext => (ClosedUnless.of_textUnless htext).ended)
              rw [Option.mem_def.1 htoken] at hend
              exact within_unlined (hterminator token htoken)
                (hend (by rw [is, hkind]; exact hwrites))
  · exact (closed.writes_woven hS h.within).mono fun _ _ _ htext => .of_closed htext

/-- A phrase and its terminator are closed, but for a last line that they leave open. -/
theorem closes_formatBody {inner : Node} (h : closed.Holds S inner) (level : Int)
    {terminator : Option Node} (hterminator : ∀ token ∈ terminator, Within S token)
    (hnone : inner.is Kind.inlinesStatement → inner.holdsLineComment → terminator = none) :
    Keeps S (formatBody columns format inner level terminator)
      (ClosedUnless (inner.leavesLineOpen terminator)) := by
  have hwritten : Keeps S (phraseOf columns format inner level terminator)
      (ClosedUnless (inner.leavesLineOpen terminator)) := by
    refine closes_phraseOf hS columns hformat h level hterminator fun hopen hleaves => ?_
    rw [leavesLineOpen, Bool.or_eq_false_iff, hleaves, Bool.true_and] at hopen
    exact ⟨hopen.1, fun _ => hopen.2⟩
  rw [formatBody_eq]
  cases terminator with
  | none => exact hwritten.bind fun taken body hbody => .pure (by rwa [List.append_nil])
  | some token =>
      by_cases hwrites : inner.is Kind.writesTerminator
      · refine hwritten.bind fun taken body hbody => ?_
        simp only [withTerminator, hwrites, if_true]
        exact .pure (by rwa [List.append_nil])
      · have hphrase : Keeps S (phraseOf columns format inner level (some token))
            (ClosedUnless false) := by
          refine closes_phraseOf hS columns hformat h level hterminator fun _ hleaves =>
            ⟨Bool.eq_false_iff.2 fun hline => ?_, fun hw => absurd hw hwrites⟩
          exact Option.some_ne_none token
            (hnone (inlinesStatement_of_leavesLineOpen hleaves hwrites) hline)
        refine hphrase.within.bind fun done body hbody => ?_
        simp only [withTerminator, hwrites, Bool.false_eq_true, if_false]
        refine (closesUnless_inline hS (hterminator token rfl) _).bind
          fun taken comments hmore => .pure ?_
        rw [List.append_nil]
        have hattached := closed_attach (fun c hc => hS c (hbody.1 c hc)) hbody.2
          (Lexeme.spaced {} token.name token.lexeme) (indentFor level)
        refine (ClosedUnless.above hattached hmore).mono fun hline => ?_
        rw [leavesLineOpen, Option.any_some, hline, Bool.or_true]

/-- A tidy node is closed. -/
theorem closes_formatWith {root : Bool} {node : Node} {given : Option Node}
    (htidy : Tidy root node given) (h : Within S node) (level : Int)
    (hgiven : ∀ token ∈ given, Within S token) :
    closed.Writes S (formatWith columns format root node level given) := by
  have hterminator := within_terminator h hgiven
  exact closed.keeps_formatWith hS columns root h level
    (closes_formatBody hS columns hformat ⟨htidy.inside, (within_unwrap h).1⟩ level hterminator
      htidy.clear.unterminated)
    ClosedUnless.above
    (fun hfirst => closes_addTrailing hS hfirst (fun hopen => (htidy.clear.ended hopen).2)
      (mem_allTrailing h) htidy.clear.repeats _)
    fun hdelimited htext => ClosedUnless.closed_ended hdelimited htext
      fun hopen => (htidy.clear.ended hopen).1

omit hS hformat in
/-- The fuel says how far down renderers run; tidy nodes are closed anyway. -/
theorem formatterCloses_formatAt (fuel : Nat) : FormatterCloses (formatAt columns fuel) := by
  induction fuel with
  | zero => exact fun _ _ _ _ _ _ _ _ => closed.writes_pure _
  | succ fuel ih =>
      exact fun S hS node level given htidy h hgiven =>
        closes_formatWith hS columns ih htidy h level hgiven

omit hformat in
/-- The comments that are left over stand below the tree, one to a line. -/
theorem closes_formatWhole {root : Node} (htidy : Tidy true root none) (h : Within S root) :
    Keeps S (formatWhole columns root) fun taken result => Closed taken result.1 :=
  closed.keeps_formatWhole columns h (closes_formatWith hS columns
    (formatterCloses_formatAt columns root.height) htidy h 0 (by simp))

end Render

/-! ## The end of the text -/

/-- A comment as it stands in the text: a line comment may have lost its end. -/
def Comment.ShownAs (comment shown : Comment) : Prop :=
  shown = comment ∨ comment.isLine ∧ ∃ part, part <+: comment.text ∧
    Text.startsWith part "//" ∧ shown = { comment with text := part }

/-- A line feed ends the line comment that was cut into. -/
theorem CutsInto.exists_closed {comments : List Comment} {text : Text}
    (h : CutsInto comments text) :
    ∃ shown, List.Forall₂ Comment.ShownAs comments shown ∧ Closed shown (text ++ "\n") := by
  induction h with
  | @part comment part hline hpart hstart =>
      exact ⟨[{ comment with text := part }],
        .cons (.inr ⟨hline, part, hpart, hstart, rfl⟩) .nil, Closed.single _⟩
  | code c _ ih =>
      obtain ⟨shown, hshown, hclosed⟩ := ih
      exact ⟨shown, hshown, .code c hclosed⟩
  | comment comment hline _ ih =>
      obtain ⟨shown, hshown, hclosed⟩ := ih
      refine ⟨comment :: shown, .cons (.inl rfl) hshown, ?_⟩
      rw [List.append_assoc]
      refine .comment comment (fun hisLine => ?_) hclosed
      rw [List.head?_append, hline hisLine, Option.some_or]

namespace Node

open Render

theorem not_mem_of_allBlank {text : Text} (h : Text.AllBlank text) : .char '/' ∉ text :=
  fun hmem => absurd (h _ hmem) (by decide)

/-- What is cut off behind a tree has no slash. -/
theorem exists_dropEndMarks (fuel : Nat) (text : Text) :
    ∃ back, text = dropEndMarks fuel text ++ back ∧ .char '/' ∉ back := by
  induction fuel generalizing text with
  | zero => exact ⟨[], (List.append_nil text).symm, List.not_mem_nil⟩
  | succ fuel ih =>
      unfold dropEndMarks
      split
      · next hend =>
          obtain ⟨front, rfl⟩ := List.isSuffixOf_iff_suffix.1 hend
          rw [List.length_append, Nat.add_sub_cancel, List.take_left]
          obtain ⟨blanks, hfront, hblank, -⟩ := Text.exists_trimRight front
          obtain ⟨back, hrest, hback⟩ := ih (Text.trimRight front)
          refine ⟨back ++ blanks ++ Lexeme.endOfFile, ?_, ?_⟩
          · rw [← List.append_assoc, ← List.append_assoc, ← hrest, ← hfront]
          · simp only [List.mem_append, not_or]
            exact ⟨⟨hback, not_mem_of_allBlank hblank⟩, by decide⟩
      · exact ⟨[], (List.append_nil text).symm, List.not_mem_nil⟩

/-- The end of a text can be cleaned, but a line comment that stands there may lose its end. -/
theorem exists_closed_cleanEnd {comments : List Comment} {whole : Text}
    (hdelimited : ∀ c ∈ comments, c.IsDelimited) (h : Closed comments whole) :
    ∃ shown, List.Forall₂ Comment.ShownAs comments shown ∧ Closed shown (cleanEnd whole) := by
  obtain ⟨blanks, hwhole, hblank, -⟩ := Text.exists_trimRight whole
  obtain ⟨back, hrest, hback⟩ :=
    exists_dropEndMarks (Text.trimRight whole).length (Text.trimRight whole)
  have hslash : .char '/' ∉ back ++ blanks := by
    rw [List.mem_append, not_or]
    exact ⟨hback, not_mem_of_allBlank hblank⟩
  unfold cleanEnd
  dsimp only
  generalize dropEndMarks (Text.trimRight whole).length (Text.trimRight whole) = rest at hrest ⊢
  rw [hwhole, hrest, List.append_assoc] at h
  split
  · next hempty =>
      rw [List.isEmpty_iff.1 hempty, List.nil_append] at h
      obtain rfl := h.eq_nil hdelimited hslash
      exact ⟨[], .nil, .nil⟩
  · rcases h.cut hdelimited hslash with hclosed | ⟨-, hcut⟩
    · exact ⟨comments, List.forall₂_same.2 fun c _ => .inl rfl, hclosed.before _⟩
    · exact hcut.exists_closed

/-- In the text of a tidy tree a line feed stands behind each line comment, so that neither code nor
another comment does. -/
theorem closed_of_formatTree (columns : Columns) {root : Node} {text : Text}
    (hdelimited : ∀ c ∈ root.comments, c.IsDelimited) (htidy : Tidy true root none)
    (h : formatTree columns root = .ok text) :
    ∃ shown, List.Forall₂ Comment.ShownAs (finalLedger columns root).written.reverse shown ∧
      Closed shown text := by
  obtain ⟨whole, hrun, rfl⟩ := run_of_formatTree h
  obtain ⟨-, taken, hwritten, hmem, hclosed⟩ :=
    closes_formatWhole (fun _ hc => hc) columns htidy hdelimited {} whole _ hrun
  rw [show ({} : Ledger).written = [] from rfl, List.append_nil] at hwritten
  rw [hwritten, List.reverse_reverse]
  exact exists_closed_cleanEnd hmem hclosed

/-- An assignment with comments behind a token and behind its semicolon. -/
def notedAssignment : Node where
  name := "statement"
  children := [
    { name := "blocking_assignment"
      children := [
        { name := "IDENTIFIER", value := some ("x" : Text) },
        { name := "ASSIGN", value := some ("=" : Text) },
        { name := "NUMBER", value := some ("1" : Text),
          trailing := [⟨("// b" : Text), .line, 2⟩] }] },
    { name := "SEMI", value := some (";" : Text)
      trailing := [⟨("/* c */" : Text), .block, 3⟩, ⟨("// d" : Text), .line, 4⟩] }]

/-- A block around it, with comments behind a keyword and behind the block. -/
def notedBlock : Node where
  name := "statement"
  children := [
    { name := "seq_block"
      children := [
        { name := "BEGIN", value := some ("begin" : Text),
          trailing := [⟨("// a" : Text), .line, 1⟩] },
        notedAssignment,
        { name := "END", value := some ("end" : Text) }] }]
  trailing := [⟨("// e" : Text), .line, 5⟩]

theorem closed_of_formatTree_notedBlock :
    Tidy true notedBlock none ∧
      ∃ shown, List.Forall₂ Comment.ShownAs
          (finalLedger Columns.standard notedBlock).written.reverse shown ∧
        Closed shown ("begin // a\n    x = 1; // b\n    /* c */ // d\nend\n// e\n" : Text) := by
  have hleaf : ∀ {node : Node}, node.unwrap.inner.children = [] → IsClear false node none →
      node.unwrap.inner.is Kind.isHeadList = false → Tidy false node none :=
    fun hnil hclear => .plain hclear (by rw [hnil]; exact List.forall_mem_nil _)
  have hassignment : Tidy false notedAssignment none :=
    .plain (by decide) (List.forall_mem_cons.2 ⟨hleaf rfl (by decide) rfl, List.forall_mem_cons.2
      ⟨hleaf rfl (by decide) rfl, List.forall_mem_singleton.2 (hleaf rfl (by decide) rfl)⟩⟩) rfl
  have htidy : Tidy true notedBlock none :=
    .plain (by decide) (List.forall_mem_cons.2 ⟨hleaf rfl (by decide) rfl, List.forall_mem_cons.2
      ⟨hassignment, List.forall_mem_singleton.2 (hleaf rfl (by decide) rfl)⟩⟩) rfl
  exact ⟨htidy, closed_of_formatTree Columns.standard (by decide) htidy (by decide +kernel)⟩

/-- A comment behind a name, and one behind the declaration around it. -/
def swallowingTree : Node where
  name := "port_declaration"
  children := [
    { name := "input_declaration"
      children := [
        { name := "INPUT", value := some ("input" : Text) },
        { name := "list_of_port_identifiers"
          children := [
            { name := "IDENTIFIER", value := some ("a" : Text)
              trailing := [⟨("// a" : Text), .line, 1⟩] }] }] }]
  trailing := [⟨("// b" : Text), .line, 2⟩]

/-- Neither call sees the comment of the other one. -/
example : formatTree Columns.standard swallowingTree =
    .ok ("    input                                         a // a // b\n" : Text) := by
  decide +kernel

end Node
end VerilogLayout

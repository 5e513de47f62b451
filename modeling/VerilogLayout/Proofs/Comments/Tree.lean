import VerilogLayout.Proofs.Comments.Module
import VerilogLayout.Proofs.Comments.Statement
import VerilogLayout.Render.Document

/-!
# A tree keeps its comments

`Standing.keeps_renderer` says of every renderer that the comments that it takes stand in what it
writes, and ends its last line if its kind does. Texts that carry comments are such a standing,
`Standing.carried`: `writes_format` says that a node at a level writes the comments that it takes
from the ledger, whatever renderers it runs through. Two steps are left for a whole tree: the
comments that no renderer has written are written behind it, `Standing.keeps_formatWhole`, and the
marks of the end of the file are cut off. The cut is the one place where a comment can be lost;
`comments_written_once_iff` says for which comments it is.
-/

namespace VerilogLayout

namespace Standing

open Node Render

variable (standing : Standing) {S : Comment → Prop}

/-- A text whose last line may be open. -/
def textUnless (isOpen : Bool) : List Comment → Text → Prop :=
  match isOpen with
  | true => standing.line
  | false => standing.text

/-- The comments in front of a phrase stand above it. -/
theorem writes_headComments {unwrapped : Unwrapped} (hinner : Within S unwrapped.inner)
    (hwrappers : AllWithin S unwrapped.wrappers) (indent : Text) :
    standing.Writes S (headComments unwrapped indent) := by
  refine (standing.writes_emit (mem_wrapperLeading hwrappers) indent).bind
    fun first front hfront => ?_
  refine (standing.writes_emit hinner.leading indent).bind fun second own hown => ?_
  refine (standing.writes_emit (mem_firstLeading hinner) indent).bind
    fun third last hlast => .pure ?_
  simp only [List.append_assoc, List.append_nil]
  exact hfront.append (hown.append hlast)

/-- Every renderer writes the comments that it takes, and ends its last line unless its kind leaves
that open. -/
theorem keeps_renderer (hS : ∀ c, S c → standing.isGood c) (columns : Columns)
    {format : Formatter} (hformat : standing.Formats S format) {kind : Kind}
    {render : Node → Int → Option Node → Render Text}
    (hrender : renderer? columns format kind = some render) {node : Node}
    (h : standing.Holds S node) (level : Int) {terminator : Option Node}
    (hterminator : kind.writesTerminator → ∀ token ∈ terminator, Within S token) :
    Keeps S (render node level terminator) (standing.textUnless kind.leavesLineOpen) := by
  unfold renderer? at hrender
  split at hrender
  all_goals cases hrender
  · exact writes_sourceText level hS hformat (fun _ hmem => h.of_mem hmem) true
  · exact writes_moduleDeclaration level hformat h
  · exact standing.writesLine_continuousAssign columns level h.within (hterminator rfl)
  · exact standing.writesLine_moduleInstantiation columns level hS h.within (hterminator rfl)
  iterate 2 exact writes_procedural level hformat h
  · exact writes_seqBlock level hformat hS h
  iterate 2 exact writes_conditional level hformat hS _ h (by simp)
  · exact writes_caseStatement level hformat hS h
  · exact writesLine_caseItem level hformat hS h
  iterate 2 exact writes_loop level hformat hS h
  · exact writesLine_timingControl level hformat hS h
  iterate 2 exact standing.writesLine_assignment level h.within (hterminator rfl)
  iterate 3 exact writes_keywordBlock level hformat h
  · exact writes_generateBlock level hformat hS h
  iterate 6 exact standing.writesLine_portDeclaration columns level h.within (hterminator rfl)
  iterate 6 exact standing.writesLine_signalDeclaration columns level h.within (hterminator rfl)
  iterate 2
    exact standing.writesLine_parameterDeclaration columns level hS h.within (hterminator rfl)

/-- A node is its phrase between the comments in front of it and those behind it. What is kept of
the phrase has to be kept below a text and in front of comments, and to give a text once the last
line is ended where the node ends its line. -/
theorem keeps_formatWith (hS : ∀ c, S c → standing.isGood c) (columns : Columns)
    {format : Formatter} (root : Bool) {node : Node} (h : Within S node) (level : Int)
    {given : Option Node} {R : List Comment → Text → Prop}
    (hbody : Keeps S (formatBody columns format node.unwrap.inner level
      (given <|> node.unwrap.terminator)) R)
    (habove : ∀ {done first head body}, standing.text done head → R first body →
      R (done ++ first) (head ++ body))
    (hbehind : ∀ {first body}, R first body → Keeps S (addTrailing body
      (node.unwrap.inner.trailing ++ wrapperTrailing node.unwrap.wrappers) (indentFor level))
        fun more text => R (first ++ more) text)
    (hend : ∀ {taken text}, (∀ c ∈ taken, standing.isGood c) → R taken text →
      standing.text taken
        (if (root || (node.unwrap.wrappers ++ [node.unwrap.inner]).any (·.is Kind.isMajor)) &&
          !text.isEmpty && !endsLine text then text ++ "\n" else text)) :
    standing.Writes S (formatWith columns format root node level given) := by
  obtain ⟨hinner, -, hwrappers⟩ := within_unwrap h
  -- What comes behind the comments in front is the same whether there are any.
  have hrest : ∀ done head, standing.text done head → Keeps S
      (do
        let body ← formatBody columns format node.unwrap.inner level
          (given <|> node.unwrap.terminator)
        let isIndented := root || node.unwrap.inner.is Kind.indentsItself || body.isEmpty ||
          Text.startsWith body "\n"
        let body := if isIndented then body else indentFor level ++ body
        let body ← addTrailing body
          (node.unwrap.inner.trailing ++ wrapperTrailing node.unwrap.wrappers) (indentFor level)
        let isMajor := root ||
          (node.unwrap.wrappers ++ [node.unwrap.inner]).any (·.is Kind.isMajor)
        pure (if isMajor && !(head ++ body).isEmpty && !endsLine (head ++ body) then
          head ++ body ++ "\n" else head ++ body))
      fun more text => (∀ c ∈ done ++ more, standing.isGood c) →
        standing.text (done ++ more) text := by
    intro done head hhead
    refine hbody.bind fun first body hfirst => ?_
    have hindented : R first (if root || node.unwrap.inner.is Kind.indentsItself ||
        body.isEmpty || Text.startsWith body "\n" then body else indentFor level ++ body) := by
      split
      · exact hfirst
      · exact habove (standing.code _) hfirst
    refine (hbehind hindented).bind fun second text hsecond => .pure fun hgood => ?_
    rw [List.append_nil] at hgood ⊢
    exact hend hgood (habove hhead hsecond)
  suffices hkept : Keeps S (formatWith columns format root node level given)
      fun taken text => (∀ c ∈ taken, standing.isGood c) → standing.text taken text from
    (keeps_good hS hkept).mono fun _ _ _ htext => htext.2 htext.1
  unfold formatWith
  dsimp only
  split
  · exact hrest [] [] .nil
  · exact (standing.writes_headComments hinner hwrappers _).bind fun done head hhead =>
      hrest done head hhead

/-- The comments that no renderer has written stand behind the tree, one to a line. -/
theorem keeps_formatWhole (columns : Columns) {root : Node}
    (h : Within S root) (hroot : standing.Writes S (format columns true root 0 none)) :
    Keeps S (formatWhole columns root) fun taken result => standing.text taken result.1 := by
  refine hroot.bind fun done text htext => ?_
  refine keeps_get.bind fun none ledger hnone => ?_
  subst hnone
  dsimp only
  split
  · exact .pure (by simpa using htext)
  · have hleftovers : ∀ c ∈ ledger.unwritten root.comments, S c :=
      fun c hc => h c ((Ledger.take_sublist root.comments ledger).subset hc)
    refine (standing.writes_emit hleftovers []).bind fun taken below hbelow => .pure ?_
    rw [List.append_nil, List.nil_append]
    refine standing.append ?_ hbelow
    split
    · exact htext
    · exact htext.before _

end Standing

/-! ## Texts that carry comments -/

namespace Render

theorem carries_inlined (indent : Text) (comments : List Comment) :
    Carries comments (Ledger.inlined indent comments) := by
  suffices h : ∀ front done, Carries done front →
      Carries (done ++ comments) (Ledger.inlined.go indent front comments) from h [] [] .nil
  induction comments with
  | nil => intro front done h; simpa [Ledger.inlined.go] using h
  | cons comment comments ih =>
      intro front done h
      rw [show done ++ comment :: comments = done ++ [comment] ++ comments by simp]
      refine ih _ _ ?_
      have hone : ∀ gap, Carries (done ++ [comment]) (front ++ gap ++ comment.text) := by
        intro gap
        simpa using (h.before gap).append (Carries.comment comment .nil)
      split
      · exact (hone _).before _
      · exact hone _

/-- Spaces are no part of a comment at the end of a text. -/
theorem carries_trimSpaces {taken : List Comment} {text : Text}
    (htrimmed : ∀ c ∈ taken, Text.IsTrimmed c.text) (h : Carries taken text) :
    Carries taken (Text.trimSpaces text) :=
  (h.dropWhile (fun _ => Text.isBlank_of_beq_space) htrimmed).dropRightWhile
    (fun _ => Text.isBlank_of_beq_space) htrimmed

/-- The indentation of a text is no part of a comment in front of it. -/
theorem carries_stripIndent {taken : List Comment} {text : Text} (level : Int)
    (htrimmed : ∀ c ∈ taken, Text.IsTrimmed c.text) (h : Carries taken text) :
    Carries taken (stripIndent text level) := by
  unfold stripIndent
  dsimp only
  split
  · next hstart =>
      obtain ⟨rest, rfl⟩ := List.isPrefixOf_iff_prefix.1 hstart
      rw [List.drop_left]
      refine h.of_blanks_append (fun c hc => ?_) htrimmed
      rw [List.eq_of_mem_replicate hc]
      rfl
  · exact h

/-- A line feed at the end of a text is no part of a comment. -/
theorem carries_dropLast {taken : List Comment} {text : Text}
    (htrimmed : ∀ c ∈ taken, Text.IsTrimmed c.text) (hend : text.getLast? = some (.char '\n'))
    (h : Carries taken text) : Carries taken (Text.dropLast text) := by
  obtain ⟨front, rfl⟩ := List.getLast?_eq_some_iff.1 hend
  rw [Text.dropLast, List.dropLast_concat]
  refine h.of_append_blanks (fun c hc => ?_) htrimmed
  rw [List.mem_singleton.1 hc]
  rfl

/-- Moving up an `else` takes a line feed away and no comment. -/
theorem carries_beforeElse {taken : List Comment} {branch : Text} {isBlock : Bool} (level : Int)
    (htrimmed : ∀ c ∈ taken, Text.IsTrimmed c.text) (h : Carries taken branch)
    (hline : isBlock → branch.getLast? = some (.char '\n')) :
    Carries taken (beforeElse branch isBlock level) := by
  unfold beforeElse
  split
  · next hblock => exact (carries_dropLast htrimmed (hline hblock.1) h).before _
  · exact (h.before _).before _

end Render

/-- Comments stand in a text that carries them, and in a line alike. -/
def Standing.carried : Standing where
  text := Carries
  line := Carries
  isGood c := Text.IsTrimmed c.text
  fits _ _ := True
  code := .none
  comment c _ _ _ h := .comment c h
  append := .append
  opened := id
  append_line := .append
  ended h := h.before _
  inlined := Render.carries_inlined
  eq_nil htrimmed h := h.eq_nil htrimmed
  trimSpaces := Render.carries_trimSpaces
  stripIndent level _ _ := Render.carries_stripIndent level
  dropLineFeeds htrimmed h := h.dropRightWhile (fun _ hc => of_decide_eq_true hc ▸ rfl) htrimmed
  beforeElse level _ _ _ := Render.carries_beforeElse level
  inside _ _ _ := trivial
  entries _ _ _ _ _ _ := trivial

/-- Whether its last line is open, a text carries its comments. -/
theorem Standing.carried_textUnless (isOpen : Bool) :
    Standing.carried.textUnless isOpen = Carries := by
  cases isOpen <;> rfl

namespace Render

open Node
open Standing (carried)

variable {S : Comment → Prop}

theorem writes_addTrailing {comments done : List Comment} (h : ∀ c ∈ comments, S c) {text : Text}
    (htext : Carries done text) (indent : Text) :
    Keeps S (addTrailing text comments indent) fun taken result =>
      Carries (done ++ taken) result := by
  unfold addTrailing
  split
  · exact .pure (by simpa using htext)
  · split
    · refine (carried.writes_emit h indent).bind fun taken below hbelow => .pure ?_
      rw [List.append_nil]
      exact htext.append hbelow
    · refine (keeps_unwritten comments).bind fun first pending hnone => ?_
      subst hnone
      refine (carried.writesLine_inline h indent).bind
        fun taken behind hbehind => .pure ?_
      rw [List.append_nil, List.nil_append]
      exact (htext.append hbehind).before _

theorem carries_attach {taken : List Comment} {text : Text}
    (htrimmed : ∀ c ∈ taken, Text.IsTrimmed c.text) (h : Carries taken text)
    (terminator indent : Text) : Carries taken (attach text terminator indent) := by
  unfold attach
  split
  · exact h.before _
  · next hline =>
      split
      · exact (h.before _).before _
      · refine ((carries_dropLast htrimmed ?_ h).before _).before _
        obtain ⟨front, rfl⟩ := List.isSuffixOf_iff_suffix.1
          (show Text.endsWith text "\n" = true by simpa [endsLine] using hline)
        simp

/-- A phrase by the renderer of its kind, or as it stands. -/
def phraseOf (columns : Columns) (format : Formatter) (inner : Node) (level : Int)
    (terminator : Option Node) : Render Text :=
  match inner.kind?.bind (renderer? columns format) with
  | some render => render inner level terminator
  | none => woven inner

/-- A phrase with its terminator behind it, unless the renderer has written that. -/
def withTerminator (inner : Node) (level : Int) (terminator : Option Node) (body : Text) :
    Render Text := do
  match terminator with
  | some token =>
      if inner.is Kind.writesTerminator then
        pure body
      else
        let comments ← inline token.comments (indentFor level)
        pure (attach body (Lexeme.spaced {} token.name token.lexeme) (indentFor level) ++ comments)
  | none => pure body

/-- A body is its phrase with the terminator behind it. -/
theorem formatBody_eq (columns : Columns) (format : Formatter) (inner : Node) (level : Int)
    (terminator : Option Node) :
    formatBody columns format inner level terminator =
      phraseOf columns format inner level terminator >>= withTerminator inner level terminator := by
  unfold formatBody phraseOf withTerminator
  dsimp only
  cases hrender : inner.kind?.bind (renderer? columns format) with
  | some render => rfl
  | none =>
      simp only [liftM_woven]
      rfl

variable (hS : ∀ c, S c → Text.IsTrimmed c.text) (columns : Columns)
include hS

theorem writes_withTerminator (inner : Node) (level : Int) {terminator : Option Node}
    (hterminator : ∀ token ∈ terminator, Within S token) {done : List Comment} {body : Text}
    (hdone : ∀ c ∈ done, S c) (hbody : Carries done body) :
    Keeps S (withTerminator inner level terminator body) fun more text =>
      Carries (done ++ more) text := by
  have hplain : Keeps S (pure body) fun more text => Carries (done ++ more) text :=
    .pure (by simpa using hbody)
  unfold withTerminator
  split
  · next token =>
      split
      · exact hplain
      · refine (carried.writesLine_inline (hterminator token rfl) _).bind
          fun more comments hmore => .pure ?_
        rw [List.append_nil]
        exact (carries_attach (fun c hc => hS c (hdone c hc)) hbody _ _).append hmore
  · exact hplain

section
variable {format : Formatter} (hformat : carried.Formats S format)
include hformat

/-- The phrase of a node writes the comments that it takes, whatever its kind is. -/
theorem writes_phraseOf {inner : Node} (h : Within S inner) (level : Int)
    {terminator : Option Node} (hterminator : ∀ token ∈ terminator, Within S token) :
    carried.Writes S (phraseOf columns format inner level terminator) := by
  unfold phraseOf
  split
  · next render hrender =>
      obtain ⟨kind, -, hkind⟩ := Option.bind_eq_some_iff.1 hrender
      have hkept := carried.keeps_renderer hS columns hformat hkind
        ⟨fun _ _ => trivial, h⟩ level fun _ => hterminator
      rwa [Standing.carried_textUnless] at hkept
  · exact carried.writes_woven hS h

/-- A phrase writes its comments and those of its terminator. -/
theorem writes_formatBody {inner : Node} (h : Within S inner) (level : Int)
    {terminator : Option Node} (hterminator : ∀ token ∈ terminator, Within S token) :
    carried.Writes S (formatBody columns format inner level terminator) := by
  rw [formatBody_eq]
  exact (writes_phraseOf hS columns hformat h level hterminator).within.bind
    fun done body hdone => writes_withTerminator hS inner level hterminator hdone.1 hdone.2

/-- A node writes what stands in front of its phrase, the phrase, and what stands behind it. -/
theorem writes_formatWith (root : Bool) {node : Node} (h : Within S node) (level : Int)
    {given : Option Node} (hgiven : ∀ token ∈ given, Within S token) :
    carried.Writes S (formatWith columns format root node level given) := by
  have hterminator := within_terminator h hgiven
  refine carried.keeps_formatWith hS columns root h level
    (writes_formatBody hS columns hformat (within_unwrap h).1 level hterminator) Carries.append
    (fun hfirst => writes_addTrailing (mem_allTrailing h) hfirst _) fun _ htext => ?_
  split
  · exact Carries.before htext _
  · exact htext

end

/-- The fuel says how far down renderers run; what they write is kept anyway. -/
theorem formatterWrites_formatAt (fuel : Nat) : carried.Formats S (formatAt columns fuel) := by
  induction fuel with
  | zero => exact fun _ _ _ _ _ _ => carried.writes_pure _
  | succ fuel ih =>
      exact fun node level terminator _ hnode hterminator =>
        writes_formatWith hS columns ih false hnode level hterminator

/-- A node at a level writes the comments that it takes from the ledger. -/
theorem writes_format (root : Bool) {node : Node} (h : Within S node) (level : Int)
    {terminator : Option Node} (hterminator : ∀ token ∈ terminator, Within S token) :
    carried.Writes S (format columns root node level terminator) :=
  writes_formatWith hS columns (formatterWrites_formatAt hS columns _) root h level hterminator

end Render
end VerilogLayout

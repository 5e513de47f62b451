import VerilogLayout.Proofs.Comments.Keep

/-!
# Runs of a ledger

All renderers share one ledger, so what a call answers depends on the calls before it. However the
calls are mixed, the ledger is left as if all comments passed to it had been taken at once,
`run_answer`, and a call hands out the comments whose index is new. `areAnswers_of_calls` is the
result for every row of calls; read `take_append` and `take_eq` first.
-/

namespace VerilogLayout
namespace Ledger

/-- The comments are told apart by their indexes alone. -/
def sameIndex (a b : Comment) : Bool :=
  a.index == b.index

/-- Of the comments with one index, the first. -/
def firsts (comments : List Comment) : List Comment :=
  comments.eraseDupsBy sameIndex

/-- Of the comments with one index, the first, unless an earlier comment has the index. -/
def fresh (earlier comments : List Comment) : List Comment :=
  firsts (comments.filter fun comment => comment.index ∉ earlier.map Comment.index)

/-! ## Comments that are taken -/

/-- Comments in a row are taken one part after the other. -/
theorem take_append (comments others : List Comment) (ledger : Ledger) :
    take (comments ++ others) ledger =
      ((take comments ledger).1 ++ (take others (take comments ledger).2).1,
        (take others (take comments ledger).2).2) := by
  induction comments generalizing ledger with
  | nil => rfl
  | cons comment rest ih =>
      rw [List.cons_append, take_cons, take_cons, ih]
      split <;> rfl

/-- The first of some comments comes first, and no later one has its index. -/
theorem firsts_cons (comment : Comment) (rest : List Comment) :
    firsts (comment :: rest) =
      comment :: firsts (rest.filter fun other => other.index ≠ comment.index) := by
  rw [firsts, List.eraseDupsBy_cons, firsts]
  simp [sameIndex]

/-- A ledger hands out the first comment of each index that it has not consumed. -/
theorem take_eq (comments : List Comment) (ledger : Ledger) :
    (take comments ledger).1 =
      firsts (comments.filter fun comment => comment.index ∉ ledger.consumed) := by
  induction comments generalizing ledger with
  | nil => rfl
  | cons comment rest ih =>
      rw [take_cons, see]
      by_cases hseen : ledger.isConsumed comment.index
      · have hmem := isConsumed_iff.1 hseen
        rw [if_pos hseen, if_neg Bool.false_ne_true, ih, List.filter_cons_of_neg (by simpa)]
      · have hmem := mt isConsumed_iff.2 hseen
        rw [if_neg hseen, if_pos rfl, ih, List.filter_cons_of_pos (by simpa), firsts_cons,
          List.filter_filter]
        simp [not_or]

/-- Of the comments that are passed, the first one with an index is handed out. -/
theorem find?_take (comments : List Comment) (ledger : Ledger) (index : Int) :
    (take comments ledger).1.find? (·.index == index) =
      if ledger.isConsumed index then none else comments.find? (·.index == index) := by
  induction comments generalizing ledger with
  | nil => simp [take]
  | cons comment rest ih =>
      rw [take_cons, see]
      by_cases hseen : ledger.isConsumed comment.index
      · rw [if_pos hseen, if_neg Bool.false_ne_true, ih, List.find?_cons]
        split
        · rfl
        · next hnew =>
            have hne : (comment.index == index) = false := by
              rw [beq_eq_false_iff_ne]
              rintro rfl
              exact hnew hseen
            rw [hne]
      · rw [if_neg hseen, if_pos rfl, List.find?_cons, List.find?_cons, ih]
        by_cases heq : comment.index = index
        · subst heq
          simp [hseen]
        · have hbeq : (comment.index == index) = false := beq_eq_false_iff_ne.2 heq
          have hgain : (⟨comment :: ledger.written⟩ : Ledger).isConsumed index =
              ledger.isConsumed index := by
            simp [isConsumed, Ne.symm heq]
          rw [hbeq, hgain]

/-- Seeing a comment tells whether its index is new, and notes it. -/
theorem see_eq (comment : Comment) (ledger : Ledger) :
    ledger.see comment =
      (decide (comment.index ∉ ledger.consumed), (take [comment] ledger).2) := by
  rw [take_cons, see]
  by_cases hseen : ledger.isConsumed comment.index
  · simp [hseen, isConsumed_iff.1 hseen, take]
  · simp [hseen, mt isConsumed_iff.2 hseen, take]

/-! ## The ledger behind a run -/

/-- The ledger to which comments have been passed. -/
def behind (passed : List Comment) : Ledger :=
  (take passed {}).2

theorem mem_consumed_behind {passed : List Comment} {index : Int} :
    index ∈ (behind passed).consumed ↔ index ∈ passed.map Comment.index := by
  rw [behind, mem_consumed_take, List.mem_map]
  simp [consumed]

/-- Behind earlier comments only the fresh ones are taken. -/
theorem take_behind (earlier comments : List Comment) :
    take comments (behind earlier) = (fresh earlier comments, behind (earlier ++ comments)) := by
  refine Prod.ext ?_ ?_
  · rw [take_eq, fresh]
    simp only [mem_consumed_behind]
  · rw [behind, behind, take_append]

/-- Behind earlier comments a comment is new if none of them has its index. -/
theorem see_behind (earlier : List Comment) (comment : Comment) :
    (behind earlier).see comment =
      (decide (comment.index ∉ earlier.map Comment.index), behind (earlier ++ [comment])) := by
  rw [see_eq, take_behind]
  simp only [mem_consumed_behind]

/-- A new ledger hands out the first comment of each index. -/
theorem take_new (comments : List Comment) : (take comments {}).1 = firsts comments := by
  rw [take_eq, List.filter_eq_self.2]
  simp [consumed]

/-- A ledger has written the first comment of each index that was passed to it. -/
theorem written_behind (passed : List Comment) :
    (behind passed).written.reverse = firsts passed := by
  rw [behind, written_take, take_new]
  simp

/-- The firsts of comments in a row are those of the front and then the fresh ones. -/
theorem firsts_append (earlier comments : List Comment) :
    firsts (earlier ++ comments) = firsts earlier ++ fresh earlier comments := by
  have htake := congrArg Prod.fst (take_append earlier comments {})
  rw [take_new, take_new, ← behind, take_behind] at htake
  exact htake

/-! ## Comments behind the code of a line -/

/-- `IsInlined indent comments text` says that the comments stand in the text in their order, the
first at its start, and that a line feed stands directly behind each line comment but the last. -/
inductive IsInlined (indent : Text) : List Comment → Text → Prop
  | last (comment : Comment) : IsInlined indent [comment] comment.text
  | line {comment : Comment} {rest : List Comment} {text : Text} : comment.isLine →
      IsInlined indent rest text →
      IsInlined indent (comment :: rest) (comment.text ++ "\n" ++ indent ++ text)
  | block {comment : Comment} {rest : List Comment} {gap text : Text} : ¬ comment.isLine →
      gap = " " ∨ gap = indent → IsInlined indent rest text →
      IsInlined indent (comment :: rest) (comment.text ++ gap ++ text)

/-- What stands between a text and the comment behind it. -/
def gapBehind (indent front : Text) : Text :=
  if front.getLast? = some (.char '\n') then indent else " "

/-- The gap behind a text is a space or the indentation. -/
theorem gapBehind_eq_or (indent front : Text) :
    gapBehind indent front = " " ∨ gapBehind indent front = indent := by
  unfold gapBehind
  split
  · exact .inr rfl
  · exact .inl rfl

/-- Behind a line feed the gap is the indentation. -/
theorem gapBehind_newline (indent front : Text) : gapBehind indent (front ++ "\n") = indent := by
  simp [gapBehind]

/-- A line comment that another one follows is closed by a line feed, a block comment is not. -/
theorem go_cons_cons (indent front : Text) (comment next : Comment) (rest : List Comment) :
    inlined.go indent front (comment :: next :: rest) =
      inlined.go indent
        (if comment.isLine then front ++ gapBehind indent front ++ comment.text ++ "\n"
        else front ++ gapBehind indent front ++ comment.text) (next :: rest) := by
  rw [inlined.go, List.isEmpty_cons, Bool.not_false, Bool.and_true]
  rfl

/-- Comments are written behind a text that may end its line. -/
theorem exists_go_eq (indent front : Text) (comment : Comment) (rest : List Comment) :
    ∃ text, IsInlined indent (comment :: rest) text ∧
      inlined.go indent front (comment :: rest) = front ++ gapBehind indent front ++ text := by
  induction rest generalizing front comment with
  | nil => exact ⟨comment.text, .last comment, by simp [inlined.go, gapBehind]⟩
  | cons next rest ih =>
      by_cases hline : comment.isLine
      · obtain ⟨text, htext, hgo⟩ :=
          ih (front ++ gapBehind indent front ++ comment.text ++ "\n") next
        refine ⟨_, .line hline htext, ?_⟩
        rw [go_cons_cons, if_pos hline, hgo, gapBehind_newline]
        simp only [List.append_assoc]
      · obtain ⟨text, htext, hgo⟩ := ih (front ++ gapBehind indent front ++ comment.text) next
        have hgap := gapBehind_eq_or indent (front ++ gapBehind indent front ++ comment.text)
        refine ⟨_, .block hline hgap htext, ?_⟩
        rw [go_cons_cons, if_neg hline, hgo]
        simp only [List.append_assoc]

/-- A space stands in front of comments that are written behind code. -/
theorem exists_inlined_eq (indent : Text) {comments : List Comment} (hne : comments ≠ []) :
    ∃ text, IsInlined indent comments text ∧ inlined indent comments = " " ++ text := by
  obtain ⟨comment, rest, rfl⟩ := List.exists_cons_of_ne_nil hne
  exact exists_go_eq indent [] comment rest

/-! ## Calls and their answers -/

/-- A call to a ledger. -/
inductive Call where
  /-- Marks a comment as written. -/
  | see (comment : Comment)
  | take (comments : List Comment)
  | emit (comments : List Comment) (indent : Text)
  | inline (comments : List Comment) (indent : Text)
  /-- Asks for the comments of a node that have not been written. -/
  | unwritten (node : Node)

/-- The answer to a call. -/
inductive Answer where
  /-- Whether a comment was not written before. -/
  | isNew (new : Bool)
  | comments (handedOut : List Comment)
  | text (written : Text)

namespace Call

/-- The comments that a call passes to the ledger. -/
def passed : Call → List Comment
  | see comment => [comment]
  | take comments => comments
  | emit comments _ => comments
  | inline comments _ => comments
  | unwritten _ => []

/-- What a call does. -/
def answer : Call → Render Answer
  | see comment => do
      pure (.isNew (← modifyGet fun ledger => ledger.see comment))
  | take comments => do
      pure (.comments (← Render.take comments))
  | emit comments indent => do
      pure (.text (← Render.emit comments indent))
  | inline comments indent => do
      pure (.text (← Render.inline comments indent))
  | unwritten node => do
      let ledger ← get
      pure (.comments (ledger.unwritten node.comments))

end Call

/-- The answer to a call behind comments that were passed earlier. -/
inductive IsAnswer (earlier : List Comment) : Call → Answer → Prop
  | see (comment : Comment) :
      IsAnswer earlier (.see comment) (.isNew (comment.index ∉ earlier.map Comment.index))
  | take (comments : List Comment) :
      IsAnswer earlier (.take comments) (.comments (fresh earlier comments))
  | emit (comments : List Comment) (indent : Text) :
      IsAnswer earlier (.emit comments indent) (.text (emitted indent (fresh earlier comments)))
  | inlineNone {comments : List Comment} {indent : Text} : fresh earlier comments = [] →
      IsAnswer earlier (.inline comments indent) (.text [])
  | inline {comments : List Comment} {indent text : Text} :
      IsInlined indent (fresh earlier comments) text →
      IsAnswer earlier (.inline comments indent) (.text (" " ++ text))
  | unwritten (node : Node) :
      IsAnswer earlier (.unwritten node) (.comments (fresh earlier node.comments))

/-- `AreAnswers earlier calls answers accepted` says that calls one after the other, behind comments
that were passed earlier, are answered so and accept these comments in all. -/
inductive AreAnswers : List Comment → List Call → List Answer → List Comment → Prop
  | nil (earlier : List Comment) : AreAnswers earlier [] [] []
  | cons {earlier accepted : List Comment} {call : Call} {answer : Answer} {calls : List Call}
      {answers : List Answer} : IsAnswer earlier call answer →
      AreAnswers (earlier ++ call.passed) calls answers accepted →
      AreAnswers earlier (call :: calls) (answer :: answers)
        (fresh earlier call.passed ++ accepted)

/-- Rendering takes behind earlier comments only the fresh ones. -/
theorem take_apply (earlier comments : List Comment) :
    Render.take comments (behind earlier) =
      (.ok (fresh earlier comments), behind (earlier ++ comments)) := by
  show (Except.ok (take comments (behind earlier)).1, (take comments (behind earlier)).2) = _
  rw [take_behind]

/-- A call accepts what is new, and the ledger gains what is passed. -/
theorem exists_answer (earlier : List Comment) (call : Call) :
    ∃ answer, call.answer (behind earlier) = (.ok answer, behind (earlier ++ call.passed)) ∧
      IsAnswer earlier call answer := by
  -- Every call takes its comments from the ledger first; what it does with them shows only in the
  -- answer.
  cases call with
  | see comment =>
      refine ⟨_, ?_, .see comment⟩
      show (Except.ok (Answer.isNew ((behind earlier).see comment).1),
        ((behind earlier).see comment).2) = _
      rw [see_behind]
      rfl
  | take comments =>
      refine ⟨_, ?_, .take comments⟩
      rw [Call.answer, Render.bind_apply, take_apply]
      rfl
  | emit comments indent =>
      refine ⟨_, ?_, .emit comments indent⟩
      rw [Call.answer, Render.bind_apply, Render.emit, Render.bind_apply, take_apply]
      rfl
  | inline comments indent =>
      refine ⟨.text (inlined indent (fresh earlier comments)), ?_, ?_⟩
      · rw [Call.answer, Render.bind_apply, Render.inline, Render.bind_apply, take_apply]
        rfl
      · by_cases hnone : fresh earlier comments = []
        · rw [hnone]
          exact .inlineNone hnone
        · obtain ⟨text, htext, hinlined⟩ := exists_inlined_eq indent hnone
          rw [hinlined]
          exact .inline htext
  | unwritten node =>
      refine ⟨_, ?_, .unwritten node⟩
      show (Except.ok (Answer.comments (take node.comments (behind earlier)).1),
        behind earlier) = _
      rw [take_behind, Call.passed, List.append_nil]

/-- Calls in any mixture leave the ledger as if all comments had been taken at once. -/
theorem run_answer (earlier : List Comment) (calls : List Call) :
    ∃ answers accepted, (calls.mapM Call.answer : Render (List Answer)) (behind earlier) =
        (.ok answers, behind (earlier ++ calls.flatMap Call.passed)) ∧
      AreAnswers earlier calls answers accepted ∧
      firsts (earlier ++ calls.flatMap Call.passed) = firsts earlier ++ accepted := by
  induction calls generalizing earlier with
  | nil =>
      refine ⟨[], [], ?_, .nil earlier, by simp⟩
      rw [List.mapM_nil, List.flatMap_nil, List.append_nil]
      rfl
  | cons call calls ih =>
      obtain ⟨answer, hcall, hanswer⟩ := exists_answer earlier call
      obtain ⟨answers, accepted, hcalls, hanswers, hfirsts⟩ := ih (earlier ++ call.passed)
      rw [List.append_assoc, ← List.flatMap_cons] at hcalls hfirsts
      refine ⟨answer :: answers, _, ?_, .cons hanswer hanswers, ?_⟩
      · rw [List.mapM_cons, Render.bind_apply, hcall]
        dsimp only
        rw [Render.bind_apply, hcalls]
        rfl
      · rw [hfirsts, firsts_append, List.append_assoc]

/-- In a run of calls each index is accepted once, with the first comment that is passed with it,
and what has been consumed are the indexes that were passed. A call accepts the comments of which
the run before it has passed no index, and asking for the unwritten comments of a node changes
nothing. In the texts that are written behind code, each line comment with another one behind it has
a line feed directly behind it. -/
theorem areAnswers_of_calls (calls : List Call) :
    ∃ answers ledger,
      (calls.mapM Call.answer : Render (List Answer)) {} = (.ok answers, ledger) ∧
      AreAnswers [] calls answers ledger.written.reverse ∧
      ledger.written.reverse = firsts (calls.flatMap Call.passed) ∧
      ledger.consumed.Nodup ∧
      (∀ index, index ∈ ledger.consumed ↔
        index ∈ (calls.flatMap Call.passed).map Comment.index) ∧
      ∀ index, ledger.written.reverse.find? (·.index == index) =
        (calls.flatMap Call.passed).find? (·.index == index) := by
  obtain ⟨answers, accepted, hrun, hanswers, hfirsts⟩ := run_answer [] calls
  rw [List.nil_append] at hrun hfirsts
  have hwritten := written_behind (calls.flatMap Call.passed)
  have hempty : IsDistinct {} := List.nodup_nil
  refine ⟨answers, _, hrun, ?_, hwritten, hempty.take _, fun index => mem_consumed_behind,
    fun index => ?_⟩
  · rw [hwritten, hfirsts]
    exact hanswers
  · rw [hwritten, ← take_new, find?_take, if_neg (by simp [isConsumed, consumed])]

end Ledger
end VerilogLayout

import VerilogLayout.Text.Basic

/-!
# Edit scripts

An edit script takes one list of lines to another: it says which lines stay and which are replaced.
`script` keeps the longest run of equal lines, the first one if there are several, and goes on in
front of it and behind it. Lines that a long text repeats often are no start for a run, though a
run may grow over them. `old_script` and `new_script` say that a script describes both lists.
-/

namespace VerilogLayout.Diff

/-- A part of an edit script. -/
inductive Segment where
  | same (lines : List Text)
  | change (old new : List Text)
deriving DecidableEq, Repr

namespace Segment

/-- The lines of a part in the old list. -/
def old : Segment → List Text
  | .same lines => lines
  | .change old _ => old

/-- The lines of a part in the new list. -/
def new : Segment → List Text
  | .same lines => lines
  | .change _ new => new

/-- `isChange s` holds for a part that does not stay as it is. -/
def isChange : Segment → Bool
  | .same _ => false
  | .change _ _ => true

end Segment

/-- A run of equal lines: where it starts in the old and in the new list, and its length. -/
structure Run where
  old : Nat := 0
  new : Nat := 0
  size : Nat := 0
deriving DecidableEq, Repr

/-- The lengths of the runs that end with `line` and each line of `new`; `before` holds the lengths
of the runs that end one line earlier in both lists. -/
def runLengths (line : Text) : List Text → List Nat → List Nat
  | other :: new, length :: before =>
      (if line = other then length + 1 else 0) :: runLengths line new before
  | _, _ => []

/-- The longer of a run and the runs that end with the old line number `old`, whose lengths are
listed from the new line number `new` on. -/
def longer (old : Nat) (best : Run) (new : Nat) : List Nat → Run
  | [] => best
  | size :: sizes =>
      let best :=
        if size > best.size then { old := old + 1 - size, new := new + 1 - size, size } else best
      longer old best (new + 1) sizes

/-- The longest run of lines that are not among `skipped`; `lengths` are those of the runs that end
with the old line in front of number `old`. -/
def longestStart (skipped new : List Text) (old : Nat) (best : Run) (lengths : List Nat) :
    List Text → Run
  | [] => best
  | line :: lines =>
      let lengths :=
        if skipped.contains line then new.map fun _ => 0 else runLengths line new (0 :: lengths)
      longestStart skipped new (old + 1) (longer old best 0 lengths) lengths lines

/-- The number of lines that two lists have in common at their front. -/
def commonLength : List Text → List Text → Nat
  | a :: as, b :: bs => if a = b then commonLength as bs + 1 else 0
  | _, _ => 0

/-- The longest run, grown at both ends. -/
def longestRun (skipped old new : List Text) : Run :=
  let run := longestStart skipped new 0 {} (new.map fun _ => 0) old
  let front := commonLength (old.take run.old).reverse (new.take run.new).reverse
  let run : Run := { old := run.old - front, new := run.new - front, size := run.size + front }
  let back := commonLength (old.drop (run.old + run.size)) (new.drop (run.new + run.size))
  { run with size := run.size + back }

/-- A part for lines that have nothing in common, if there are any. -/
def replaced (old new : List Text) : List Segment :=
  if old.isEmpty && new.isEmpty then [] else [.change old new]

/-- The parts of two lists. Lines among `skipped` start no run. The lines of a run are compared
once more, so that a part stays only if it is the same. -/
def parts (skipped old new : List Text) : List Segment :=
  let run := longestRun skipped old new
  let kept := (old.drop run.old).take run.size
  if _h : 0 < run.size ∧ run.old + run.size ≤ old.length ∧
      kept = (new.drop run.new).take run.size then
    parts skipped (old.take run.old) (new.take run.new) ++
      .same kept ::
        parts skipped (old.drop (run.old + run.size)) (new.drop (run.new + run.size))
  else
    replaced old new
termination_by old.length
decreasing_by
  · rw [List.length_take]; simp only [run] at _h; omega
  · rw [List.length_drop]; simp only [run] at _h; omega

/-- The parts with neighbours that stay taken together. -/
def merge : List Segment → List Segment
  | [] => []
  | .same lines :: rest =>
      match merge rest with
      | .same more :: rest => .same (lines ++ more) :: rest
      | rest => .same lines :: rest
  | segment :: rest => segment :: merge rest

/-- The number of lines from which on repeated lines start no run. -/
def longText : Nat := 200

/-- The lines that a long text repeats often. -/
def repeatedLines (new : List Text) : List Text :=
  if new.length < longText then []
  else (new.filter fun line => new.length / 100 + 1 < new.count line).eraseDups

/-- The edit script from one list to another. -/
def script (old new : List Text) : List Segment :=
  merge (parts (repeatedLines new) old new)

theorem flatMap_replaced_old (old new : List Text) :
    (replaced old new).flatMap Segment.old = old := by
  cases old <;> cases new <;> simp [replaced, Segment.old]

theorem flatMap_replaced_new (old new : List Text) :
    (replaced old new).flatMap Segment.new = new := by
  cases old <;> cases new <;> simp [replaced, Segment.new]

theorem flatMap_parts_old (skipped old new : List Text) :
    (parts skipped old new).flatMap Segment.old = old := by
  fun_induction parts skipped old new with
  | case1 old new run kept h ihl ihr =>
    simp only [List.flatMap_append, List.flatMap_cons, ihl, ihr, Segment.old, kept]
    rw [← List.append_assoc, ← List.drop_drop, List.append_assoc, List.take_append_drop,
      List.take_append_drop]
  | case2 old new => exact flatMap_replaced_old old new

theorem flatMap_merge_old (segments : List Segment) :
    (merge segments).flatMap Segment.old = segments.flatMap Segment.old := by
  fun_induction merge segments with
  | case1 => rfl
  | case2 lines rest more rest' h ih => rw [h] at ih; simp [Segment.old, ← ih]
  | case3 lines rest _ ih => simp [ih]
  | case4 segment rest _ ih => simp [ih]

/-- The old lines of a script are the old lines. -/
theorem old_script (old new : List Text) : (script old new).flatMap Segment.old = old := by
  rw [script, flatMap_merge_old, flatMap_parts_old]

theorem flatMap_parts_new (skipped old new : List Text) :
    (parts skipped old new).flatMap Segment.new = new := by
  fun_induction parts skipped old new with
  | case1 old new run kept h ihl ihr =>
    -- The kept lines are those of the old list, and the run says that the new list has them too.
    simp only [List.flatMap_append, List.flatMap_cons, ihl, ihr, Segment.new]
    rw [h.2.2, ← List.append_assoc, ← List.drop_drop, List.append_assoc, List.take_append_drop,
      List.take_append_drop]
  | case2 old new => exact flatMap_replaced_new old new

theorem flatMap_merge_new (segments : List Segment) :
    (merge segments).flatMap Segment.new = segments.flatMap Segment.new := by
  fun_induction merge segments with
  | case1 => rfl
  | case2 lines rest more rest' h ih => rw [h] at ih; simp [Segment.new, ← ih]
  | case3 lines rest _ ih => simp [ih]
  | case4 segment rest _ ih => simp [ih]

/-- The new lines of a script are the new lines. -/
theorem new_script (old new : List Text) : (script old new).flatMap Segment.new = new := by
  rw [script, flatMap_merge_new, flatMap_parts_new]

end VerilogLayout.Diff

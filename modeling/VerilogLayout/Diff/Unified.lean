import VerilogLayout.Diff.Script
import VerilogLayout.Text.Lines

/-!
# Unified diffs

A `Hunk` is a part of an edit script with the lines that stay at both ends cut to a few lines of
context. `unified` writes the hunks of two texts, each behind a line that says where it stands.
-/

namespace VerilogLayout.Diff

/-- The number of lines that are shown around a change. -/
def contextSize : Nat := 3

/-- A part of a script with the numbers of the lines in front of it. -/
structure Hunk where
  old : Nat
  new : Nat
  segments : List Segment
deriving DecidableEq, Repr

namespace Hunk

/-- The number of old lines of a hunk. -/
def oldSize (hunk : Hunk) : Nat :=
  (hunk.segments.flatMap Segment.old).length

/-- The number of new lines of a hunk. -/
def newSize (hunk : Hunk) : Nat :=
  (hunk.segments.flatMap Segment.new).length

/-- The hunk with one more part behind it. -/
def add (hunk : Hunk) (segment : Segment) : Hunk :=
  { hunk with segments := hunk.segments ++ [segment] }

/-- The hunk that starts with the last lines of context of `lines`, which follow `hunk`. -/
def behind (hunk : Hunk) (lines : List Text) : Hunk :=
  let cut := lines.length - contextSize
  { old := hunk.old + hunk.oldSize + cut
    new := hunk.new + hunk.newSize + cut
    segments := [.same (lines.drop cut)] }

end Hunk

/-- The hunks of the rest of a script; `hunk` is the one that is being collected. -/
def hunksFrom (hunk : Hunk) : List Segment → List Hunk
  | [] => [hunk]
  | [.same lines] => [hunk.add (.same (lines.take contextSize))]
  | .same lines :: rest =>
      if lines.length > 2 * contextSize then
        hunk.add (.same (lines.take contextSize)) :: hunksFrom (hunk.behind lines) rest
      else
        hunksFrom (hunk.add (.same lines)) rest
  | segment :: rest => hunksFrom (hunk.add segment) rest

/-- The hunks of a script; a script without changes has none. -/
def hunks (segments : List Segment) : List Hunk :=
  if segments.any Segment.isChange then
    let start : Hunk := { old := 0, new := 0, segments := [] }
    match segments with
    | .same lines :: rest => hunksFrom (start.behind lines) rest
    | segments => hunksFrom start segments
  else
    []

/-- Where some lines stand: the number of the first one and how many there are. One line has no
count, and no lines are said to stand behind the line in front of them. -/
def rangeText (before size : Nat) : Text :=
  if size = 1 then Text.ofNat (before + 1)
  else if size = 0 then Text.ofNat before ++ ",0"
  else Text.ofNat (before + 1) ++ "," ++ Text.ofNat size

/-- The line above a hunk. -/
def Hunk.heading (hunk : Hunk) : Text :=
  "@@ -" ++ rangeText hunk.old hunk.oldSize ++ " +" ++ rangeText hunk.new hunk.newSize ++ " @@\n"

/-- A part with a mark in front of each line. -/
def Segment.marked : Segment → Text
  | .same lines => lines.flatMap (' ' :: ·)
  | .change old new => old.flatMap (.char '-' :: ·) ++ new.flatMap (.char '+' :: ·)

/-- The difference of two texts under their names; equal texts have none. -/
def unified (oldName newName old new : Text) : Text :=
  match hunks (script (Text.linesWithEnds old) (Text.linesWithEnds new)) with
  | [] => []
  | hunks =>
      "--- " ++ oldName ++ "\n+++ " ++ newName ++ "\n" ++
        hunks.flatMap fun hunk => hunk.heading ++ hunk.segments.flatMap Segment.marked

end VerilogLayout.Diff

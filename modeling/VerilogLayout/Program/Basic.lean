import VerilogLayout.Files.Store
import VerilogLayout.Text.Blank
import VerilogLayout.Text.Lines

/-!
# Running programs

A `Runner` stands for whatever runs programs: it is given the files, a time limit in seconds and a
command, and says how the program ended and which files there are then. Nothing else in the library
knows how programs are run.
-/

namespace VerilogLayout

/-- How a program ended. -/
structure Finished where
  status : Int := 0
  out : Text := []
  err : Text := []
deriving DecidableEq, Repr

/-- Why a program did not end by itself. -/
inductive RunProblem where
  | notFound
  | timedOut
  | notStarted (cause : FileError)
deriving DecidableEq, Repr

/-- What runs programs. -/
abbrev Runner := Files → Float → List Text → Except RunProblem Finished × Files

namespace Finished

/-- The last line of what a program has said: of its complaints if there are any, of its answer if
not. -/
def lastWords (finished : Finished) : Option Text :=
  let said := if finished.err.isEmpty then finished.out else finished.err
  (Text.lines (Text.trim said)).getLast?

end Finished
end VerilogLayout

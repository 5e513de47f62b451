import VerilogLayout.Data.Json
import VerilogLayout.Files.Store
import VerilogLayout.Report
import VerilogLayout.Text.Lines
import VerilogLayout.Tree.Decode

/-!
# Loading trees

`Node.parse?` reads a tree from JSON text and `Node.load?` from a file. What can go wrong with the
tree itself is a `TreeError`; a file whose bytes are no text and a tree that the stack has no room
for are failures of their own kinds, which `LoadError` keeps apart.
-/

namespace VerilogLayout

/-- Why a text or a value is no tree. -/
inductive TreeProblem where
  | text (fault : Json.Fault) (source : Text)
  | data (mismatch : Mismatch)
  | limit (passed : Limit)
deriving DecidableEq, Repr

namespace TreeProblem

/-- The problem in words. -/
def message : TreeProblem → Text
  | .text fault source => fault.message source
  | .data mismatch => mismatch.message
  | limit passed => passed.message

end TreeProblem

/-- Why a tree cannot be had from where it should be. -/
inductive TreeError where
  | malformed (problem : TreeProblem) (path : Option Text)
  | notFound (path : Text)
  | unreadable (cause : FileError) (path : Text)
deriving DecidableEq, Repr

namespace TreeError

/-- What an error says. -/
def report : TreeError → Report
  | .malformed problem path =>
      { topic := .treeReading
        message := "Malformed syntax tree: " ++ problem.message
        location := { path }
        hint := some "The tree must be a JSON object with 'name' and 'value' or 'children'." }
  | .notFound path =>
      { topic := .treeReading
        message := "Syntax tree not found: " ++ path
        location := { path := some path } }
  | .unreadable cause path =>
      { topic := .treeReading
        message := "Cannot read syntax tree: " ++ cause.message
        location := { path := some path } }

end TreeError

/-- Why a tree file cannot be loaded. -/
inductive LoadError where
  | tree (e : TreeError)
  | encoding (e : Utf8Error)
  /-- The stack has no room. -/
  | limit (limit : Limit)
deriving DecidableEq, Repr

namespace Files

/-- The text of bytes, with a line feed at the end of every line. -/
def decodeText? (bytes : Bytes) : Except Utf8Error Text :=
  (Text.ofUtf8? bytes).map Text.unifyNewlines

end Files

namespace Node

/-- The tree that a value holds. -/
def check? (value : Value) (path : Option Text) : Except TreeError Node :=
  match ofValue? value with
  | .ok node => .ok node
  | .error mismatch => .error (.malformed (.data mismatch) path)

/-- The tree that a JSON text holds. Up to `room` brackets may be open at once. -/
def parse? (room : Nat) (source : Text) (path : Option Text) : Except LoadError Node :=
  match Json.read? room source with
  | .ok value => (check? value path).mapError .tree
  | .error (.fault fault) => .error (.tree (.malformed (.text fault source) path))
  | .error (.limit limit) =>
      if limit.concernsStack then .error (.limit limit)
      else .error (.tree (.malformed (.limit limit) path))

/-- The tree in a file. -/
def load? (room : Nat) (files : Files) (path : Path) : Except LoadError Node :=
  match files.read? path with
  | .error ⟨.notFound, _⟩ => .error (.tree (.notFound path.toText))
  | .error cause => .error (.tree (.unreadable cause path.toText))
  | .ok bytes =>
      match Files.decodeText? bytes with
      | .error e => .error (.encoding e)
      | .ok source => parse? room source (some path.toText)

/-- The number of tokens of a tree and of the comments on them. -/
def summary (node : Node) : Nat × Nat :=
  let tokens := node.tokens
  (tokens.length, (tokens.flatMap fun token => token.leading ++ token.trailing).length)

end Node
end VerilogLayout

import VerilogLayout.Render.Document
import VerilogLayout.Source.Align
import VerilogLayout.Tree.Make

/-!
# Formatting documents

`formatDocument` formats a source text with its tree if there is one and line by line if there is
none. What is wrong with the tree is told as a warning and never keeps the text from being aligned;
a tree that cannot be rendered leaves the text as it is. Only a tree file whose bytes are no text or
that the stack has no room for, a path that no file can have, and an old tree that cannot be removed
stop the formatting.
-/

namespace VerilogLayout

/-- Where the tree of a text comes from. -/
inductive TreeSource where
  | absent
  | given (tree : Node)
  | file (path : Path)
  /-- The tree is made of the file at `path` and has a name that ends in `suffix`. -/
  | made (run : Runner) (maker : TreeMaker) (path : Path) (suffix : Text)

namespace TreeSource

/-- The tree, if there is to be one, with the events and the files afterwards. -/
def resolve (depths : Depths) (files : Files) :
    TreeSource → Except MakingError (Option Node) × List Event × Files
  | .absent => (.ok none, [], files)
  | .given tree => (.ok (some tree), [], files)
  | .file path =>
      match path.toText.nameFault? with
      | some fault => (.error (.path fault), [], files)
      | none =>
          match Node.load? depths.tree files path with
          | .ok tree => (.ok (some tree), TreeMaker.loaded path tree, files)
          | .error e => (.error (.loading e), [], files)
  | .made run maker path suffix =>
      let (tree, events, files) := maker.makeTemporary run depths.made files path suffix
      (tree.map some, events, files)

end TreeSource

/-- What a text is formatted with. -/
inductive Mode where
  | tree
  | lines
deriving DecidableEq, Repr

namespace Mode

/-- The name of a mode. -/
def name : Mode → Text
  | .tree => "ast"
  | .lines => "fallback"

end Mode

/-- A formatted text and how it came about. -/
structure Formatted where
  text : Text
  changed : Bool
  errors : List Text := []
  warnings : List Text := []
  mode : Mode
deriving DecidableEq, Repr

namespace Formatted

/-- `succeeded f` holds if there are no errors. -/
def succeeded (formatted : Formatted) : Bool :=
  formatted.errors.isEmpty

end Formatted

/-- The warning that there is no tree. -/
def noTreeWarning : Text :=
  "No syntax tree available; aligned with regular expressions"

/-- A text aligned line by line. -/
def formatLines (columns : Columns) (text warning : Text) : Formatted × List Event :=
  let aligned := alignText columns text
  ({ text := aligned, changed := aligned ≠ text, warnings := [warning], mode := .lines },
    [.linesAligned (List.splitOn (.char '\n') text).length])

/-- A text replaced by the rendering of its tree, or left as it is if that fails. -/
def formatWithTree (columns : Columns) (text : Text) (label : Option Text) (tree : Node) :
    Formatted × List Event :=
  match Node.formatTreeCounted columns tree with
  | .ok (rendered, appended) =>
      ({ text := rendered, changed := rendered ≠ text, mode := .tree },
        if appended = 0 then [] else [.commentsAppended appended])
  | .error e =>
      ({ text, changed := false, errors := ["Formatting error: " ++ e.message], mode := .tree },
        [.formattingFailed label e.named])

/-- Tells that a text has no usable tree. -/
def fellBack (label : Option Text) (report : Option Report) : Event :=
  .fellBack <|
    match report with
    | some report =>
        { reason := (report.code?.filter fun code => !code.isEmpty).getD "tree-load"
          path := label
          detail := some report.message }
    | none => { reason := "no-tree", path := label }

/-- Formats a text. `label` is the file that it comes from, if it comes from one. -/
def formatDocument (depths : Depths) (columns : Columns) (files : Files) (text : Text)
    (label : Option Text) (source : TreeSource) :
    Except MakingError Formatted × List Event × Files :=
  let (tree, events, files) := source.resolve depths files
  match tree with
  | .ok (some tree) =>
      let (formatted, more) := formatWithTree columns text label tree
      (.ok formatted, events ++ more, files)
  | .ok none =>
      let (formatted, more) := formatLines columns text noTreeWarning
      (.ok formatted, events ++ fellBack label none :: more, files)
  | .error e =>
      match e.report? with
      | some report =>
          let (formatted, more) := formatLines columns text report.format
          (.ok formatted, events ++ fellBack label (some report) :: more, files)
      | none => (.error e, events, files)

end VerilogLayout

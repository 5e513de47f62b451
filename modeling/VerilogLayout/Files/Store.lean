import VerilogLayout.Files.Path
import VerilogLayout.Text.Utf8

/-!
# Files

A `Files` holds the files and directories that a run can see: those below the working directory
and those below a directory for temporary files. A path is followed name by name, so that each
name on the way has to be a directory. `Files.read?`, `Files.write?` and `Files.remove?` fail with
the cause that a user is told.
-/

namespace VerilogLayout

/-- What is found at a path. -/
inductive Entry where
  | file (bytes : Bytes)
  | directory
deriving DecidableEq, Repr

/-- Why a file cannot be used. -/
inductive FileProblem where
  | notFound
  | denied
  | notDirectory
  | isDirectory
deriving DecidableEq, Repr

/-- A problem and the path it is about, as the user wrote it. -/
structure FileError where
  problem : FileProblem
  path : Text
deriving DecidableEq, Repr

namespace FileProblem

/-- The number of a problem. -/
def number : FileProblem → Nat
  | .notFound => 2
  | .denied => 13
  | .notDirectory => 20
  | .isDirectory => 21

/-- The problem in words. -/
def message : FileProblem → Text
  | .notFound => "No such file or directory"
  | .denied => "Permission denied"
  | .notDirectory => "Not a directory"
  | .isDirectory => "Is a directory"

/-- The name of a problem. -/
def kind : FileProblem → Text
  | .notFound => "FileNotFoundError"
  | .denied => "PermissionError"
  | .notDirectory => "NotADirectoryError"
  | .isDirectory => "IsADirectoryError"

end FileProblem

namespace FileError

/-- The message of a file error. -/
def message (e : FileError) : Text :=
  "[Errno " ++ Text.ofNat e.problem.number ++ "] " ++ e.problem.message ++ ": " ++
    Text.quoted e.path

end FileError

/-- The files that a run can see. Paths start at a known directory and hold no two points. -/
structure Files where
  /-- The working directory, by its whole path. -/
  root : Text
  /-- The directory for temporary files, by its whole path. -/
  scratch : Text
  entries : List (Path × Entry) := []
deriving Repr

namespace Files

/-- The entry at a path without points; the two directories that everything is below exist. -/
def entry? (files : Files) (path : Path) : Option Entry :=
  if path.names.isEmpty then
    match path.anchor with
    | .here => none
    | _ => some .directory
  else
    files.entries.lookup path

/-- The path of the working directory. -/
def home (files : Files) : Path :=
  { anchor := .known files.root }

/-- A path with the working directory in front, if it is relative. -/
def absolute (files : Files) (path : Path) : Path :=
  files.home.join path

/-- The path without points that a path leads to by its names alone. -/
def resolve (files : Files) (path : Path) : Path :=
  let path := files.absolute path
  { path with names := Path.collapse path.names }

/-- Follows names from a place, whose names are reversed. -/
def follow (files : Files) (anchor : Anchor) (place : List Text) :
    List Text → Except FileProblem (List Text)
  | [] => .ok place
  | name :: rest =>
      match files.entry? { anchor, names := place.reverse } with
      | none => .error .notFound
      | some (.file _) => .error .notDirectory
      | some .directory =>
          -- Two points lead up only from a directory that exists, and the top is above itself.
          if name = (".." : Text) then
            files.follow anchor place.tail rest
          else
            files.follow anchor (name :: place) rest

/-- The path without points that a path leads to; its last name need not exist. -/
def locate (files : Files) (path : Path) : Except FileProblem Path := do
  let path := files.absolute path
  let names ← files.follow path.anchor [] path.names
  .ok { path with names := names.reverse }

/-- What is found at a path. -/
def find (files : Files) (path : Path) : Except FileProblem Entry := do
  let place ← files.locate path
  match files.entry? place with
  | some entry => .ok entry
  | none => .error .notFound

/-- A path leads to a file. -/
def isFile (files : Files) (path : Path) : Bool :=
  match files.find path with
  | .ok (.file _) => true
  | _ => false

/-- A path leads to a directory. -/
def isDirectory (files : Files) (path : Path) : Bool :=
  match files.find path with
  | .ok .directory => true
  | _ => false

/-- A path leads somewhere. -/
def exists? (files : Files) (path : Path) : Bool :=
  files.isFile path || files.isDirectory path

/-- The bytes of the file at a path. -/
def read? (files : Files) (path : Path) : Except FileError Bytes :=
  match files.find path with
  | .ok (.file bytes) => .ok bytes
  | .ok .directory => .error ⟨.isDirectory, path.toText⟩
  | .error problem => .error ⟨problem, path.toText⟩

/-- The files with an entry at a path without points. -/
def put (files : Files) (path : Path) (entry : Entry) : Files :=
  if (files.entries.lookup path).isSome then
    { files with
      entries := files.entries.map fun (p, e) => if p = path then (p, entry) else (p, e) }
  else
    { files with entries := files.entries ++ [(path, entry)] }

/-- The files without the entry at a path without points. -/
def drop (files : Files) (path : Path) : Files :=
  { files with entries := files.entries.filter fun (p, _) => p ≠ path }

/-- The files with these bytes at a path, whose directory has to exist. -/
def write? (files : Files) (path : Path) (bytes : Bytes) : Except FileError Files :=
  match files.locate path with
  | .error problem => .error ⟨problem, path.toText⟩
  | .ok place =>
      match files.entry? place with
      | some .directory => .error ⟨.isDirectory, path.toText⟩
      | _ => .ok (files.put place (.file bytes))

/-- The files without the file at a path. -/
def remove? (files : Files) (path : Path) : Except FileError Files :=
  match files.find path, files.locate path with
  | .ok (.file _), .ok place => .ok (files.drop place)
  | .ok .directory, _ => .error ⟨.isDirectory, path.toText⟩
  | .error problem, _ => .error ⟨problem, path.toText⟩
  | _, .error problem => .error ⟨problem, path.toText⟩

/-- The path that a text names. A whole path that starts with one of the two directories starts
there. -/
def named (files : Files) (s : Text) : Path :=
  let behind (text : Text) : Option Path :=
    if s = text then some { anchor := .known text }
    else if Text.startsWith s (text ++ "/") then
      some { Path.ofText (s.drop (text.length + 1)) with anchor := .known text }
    else none
  ((behind files.root).or (behind files.scratch)).getD (Path.ofText s)

/-- The names below a directory without points, at any depth, with their entries. -/
def below (files : Files) (path : Path) : List (List Text × Entry) :=
  files.entries.filterMap fun (p, entry) =>
    if p.anchor = path.anchor ∧ path.names.isPrefixOf p.names ∧ p.names ≠ path.names then
      some (p.names.drop path.names.length, entry)
    else
      none

/-- The files below the working directory that are new or have other bytes than before. -/
def changes (before after : Files) : List (Path × Bytes) :=
  after.entries.filterMap fun (path, entry) =>
    match entry with
    | .file bytes =>
        if path.anchor = .known after.root ∧ before.entries.lookup path ≠ some entry then
          some (path, bytes)
        else none
    | .directory => none

/-- The files without what is below the directory for temporary files. -/
def clearScratch (files : Files) : Files :=
  { files with entries := files.entries.filter fun (p, _) => p.anchor ≠ .known files.scratch }

/-- The files with the directories on the way to a path without points. -/
def makeParents (files : Files) (path : Path) : Files :=
  (List.range path.names.length).foldl
    (fun files n =>
      let parent := { path with names := path.names.take n }
      if (files.entry? parent).isSome then files else files.put parent .directory)
    files

/-- The files with one more entry below the working directory and the directories on the way. -/
def add (files : Files) (path : Path) (entry : Entry) : Files :=
  let place := files.resolve path
  let files := files.makeParents place
  if entry = .directory ∧ (files.entry? place).isSome then files else files.put place entry

end Files
end VerilogLayout

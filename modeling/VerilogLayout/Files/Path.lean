import VerilogLayout.Text.Basic

/-!
# Paths

A `Path` is a list of names behind an anchor. Reading a path drops empty names and points, so two
spellings of one path are equal; two points stay, since only a file system can say where they
lead. `Path.suffix` is the part of the last name from its last point on.
-/

namespace VerilogLayout

/-- Where a path starts. -/
inductive Anchor where
  /-- The working directory. -/
  | here
  /-- The top of the file system. -/
  | top
  /-- A directory that is known by the text of its whole path. -/
  | known (text : Text)
deriving DecidableEq, Repr

/-- A path. -/
structure Path where
  anchor : Anchor := .here
  names : List Text := []
deriving DecidableEq, Repr, Inhabited

instance : Inhabited Anchor := ⟨.here⟩

namespace Path

/-- The path that a text names. -/
def ofText (s : Text) : Path :=
  { anchor := if Text.startsWith s "/" then .top else .here
    names := (List.splitOn (.char '/') s).filter fun name => !name.isEmpty && name ≠ ("." : Text) }

/-- The text of a path. -/
def toText (path : Path) : Text :=
  match path.anchor with
  | .here => if path.names.isEmpty then "." else List.intercalate "/" path.names
  | .top => "/" ++ List.intercalate "/" path.names
  | .known text => List.intercalate "/" (text :: path.names)

/-- The last name of a path, which is empty if there is none. -/
def name (path : Path) : Text :=
  path.names.getLast?.getD []

/-- The path of an entry of a directory. -/
def child (path : Path) (name : Text) : Path :=
  { path with names := path.names ++ [name] }

/-- `isFileName s` holds if `s` can stand as the last name of a path: it leads one step down, and
there is no slash at its ends. -/
def isFileName (s : Text) : Bool :=
  (ofText s).names.length = 1 && !Text.startsWith s "/" && !Text.endsWith s "/"

/-- The path with another last name. -/
def withName (path : Path) (name : Text) : Path :=
  { path with names := path.names.dropLast ++ [name] }

/-- A relative path behind this one; any other stands for itself. -/
def join (path other : Path) : Path :=
  match other.anchor with
  | .here => { path with names := path.names ++ other.names }
  | _ => other

/-- The last name from its last point on, unless the point is its first or last character. -/
def suffix (path : Path) : Text :=
  match Text.findLast? "." path.name with
  | none => []
  | some i => if 0 < i ∧ i + 1 < path.name.length then path.name.drop i else []

/-- The names with every pair of a name and two points behind it left out. -/
def collapse (names : List Text) : List Text :=
  (names.foldl (fun front (name : Text) => if name = ".." then front.tail else name :: front)
    []).reverse

end Path
end VerilogLayout

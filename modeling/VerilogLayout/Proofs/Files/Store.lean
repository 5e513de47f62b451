import Mathlib.Data.List.Basic
import VerilogLayout.Proofs.Files.Utf8

/-!
# Files that are overwritten

Giving a file other bytes changes what stands at its place and nothing else: `entry?_put`. It also
leaves the tree of names as it is, which is all that paths are followed by; two stores with the same
names are `Alike`. So what a path leads to after a file is overwritten follows from `Alike.locate`
and `Alike.find_eq`.
-/

namespace VerilogLayout

namespace Entry

/-- `isDirectory entry` holds for directories. -/
def isDirectory : Entry → Bool
  | .file _ => false
  | .directory => true

/-- There is nothing, a file or a directory at both of two places. -/
theorem eq_of_isDirectory_eq {a b : Option Entry} (h : a.map isDirectory = b.map isDirectory) :
    (a = none ∧ b = none) ∨ (∃ bytes bytes', a = some (.file bytes) ∧ b = some (.file bytes')) ∨
      (a = some .directory ∧ b = some .directory) := by
  rcases a with _ | (bytes | _) <;> rcases b with _ | (bytes' | _)
  any_goals cases h
  · exact .inl ⟨rfl, rfl⟩
  · exact .inr (.inl ⟨bytes, bytes', rfl, rfl⟩)
  · exact .inr (.inr ⟨rfl, rfl⟩)

end Entry

namespace Files

variable {files before after : Files} {path place other : Path} {bytes old : Bytes} {entry : Entry}

/-! ## What is put in a place -/

/-- The first entry of a path is the one that counts. -/
theorem lookup_cons_eq (p path : Path) (e : Entry) (entries : List (Path × Entry)) :
    ((p, e) :: entries).lookup path = if path = p then some e else entries.lookup path := by
  by_cases h : path = p
  · subst h
    simp
  · have hbeq : (path == p) = false := beq_false_of_ne h
    simp [List.lookup_cons, hbeq, h]

/-- The entry that takes the place of others is found there, and nothing changes elsewhere. -/
theorem lookup_replaced (entries : List (Path × Entry)) (place path : Path) (entry : Entry) :
    (entries.map fun (p, e) => if p = place then (p, entry) else (p, e)).lookup path =
      if path = place then (entries.lookup place).map fun _ => entry else entries.lookup path := by
  induction entries with
  | nil => split <;> rfl
  | cons first rest ih =>
      obtain ⟨p, e⟩ := first
      have hfirst : (if p = place then (p, entry) else (p, e)) =
          (p, if p = place then entry else e) := by split <;> rfl
      rw [List.map_cons]
      show List.lookup path ((if p = place then (p, entry) else (p, e)) :: _) = _
      rw [hfirst, lookup_cons_eq, lookup_cons_eq, lookup_cons_eq, ih]
      by_cases hp : p = place
      · subst hp
        by_cases hpath : path = p
        · simp [hpath]
        · simp [hpath]
      · have hplace : place ≠ p := fun h => hp h.symm
        by_cases hpath : path = p
        · subst hpath
          simp [hp]
        · simp [hpath, hplace]

/-- The place of a file has a name. -/
theorem names_ne_nil (h : files.entry? place = some (.file old)) : place.names ≠ [] := by
  intro hnil
  unfold entry? at h
  rw [if_pos (by rw [hnil]; rfl)] at h
  split at h <;> cases h

/-- A file is found among the entries. -/
theorem lookup_of_file (h : files.entry? place = some (.file old)) :
    files.entries.lookup place = some (.file old) := by
  unfold entry? at h
  rwa [if_neg (by simpa using names_ne_nil h)] at h

/-- A file that is overwritten is found with its new bytes, and nothing changes elsewhere. -/
theorem entry?_put (h : files.entry? place = some (.file old)) (path : Path) :
    Files.entry? (files.put place (.file bytes)) path =
      if path = place then some (.file bytes) else files.entry? path := by
  have hlookup := lookup_of_file h
  have hput : files.put place (.file bytes) = { files with
      entries := files.entries.map fun (p, e) => if p = place then (p, .file bytes) else (p, e) } :=
    if_pos (by rw [hlookup]; rfl)
  rw [hput]
  unfold entry?
  dsimp only
  rw [lookup_replaced, hlookup, Option.map_some]
  by_cases hpath : path = place
  · subst hpath
    rw [if_neg (by simpa using names_ne_nil h), if_pos rfl, if_pos rfl]
  · rw [if_neg hpath, if_neg hpath]

/-! ## What a path leads to -/

/-- A path is found if it leads to a place with an entry. -/
theorem find_eq_ok :
    files.find path = .ok entry ↔
      ∃ place, files.locate path = .ok place ∧ files.entry? place = some entry := by
  unfold find
  cases hplace : files.locate path with
  | error problem =>
      constructor
      · intro h
        cases h
      · rintro ⟨_, h, _⟩
        cases h
  | ok place =>
      constructor
      · intro h
        refine ⟨place, rfl, ?_⟩
        cases hentry : files.entry? place with
        | none => simp [bind, Except.bind, hentry] at h
        | some found => simpa [bind, Except.bind, hentry] using h
      · rintro ⟨_, hplace', hentry⟩
        obtain rfl := Except.ok.inj hplace'
        simp [bind, Except.bind, hentry]

/-- A path is a file if it leads to the place of one. -/
theorem isFile_iff :
    files.isFile path ↔
      ∃ place bytes, files.locate path = .ok place ∧ files.entry? place = some (.file bytes) := by
  unfold isFile
  constructor
  · intro h
    split at h
    · next bytes hfind =>
        obtain ⟨place, hplace, hentry⟩ := find_eq_ok.1 hfind
        exact ⟨place, bytes, hplace, hentry⟩
    · cases h
  · rintro ⟨place, bytes, hplace, hentry⟩
    rw [find_eq_ok.2 ⟨place, hplace, hentry⟩]

/-- A path is a directory if it leads to the place of one. -/
theorem isDirectory_iff :
    files.isDirectory path ↔
      ∃ place, files.locate path = .ok place ∧ files.entry? place = some .directory := by
  unfold isDirectory
  constructor
  · intro h
    split at h
    · next hfind => exact find_eq_ok.1 hfind
    · cases h
  · rintro ⟨place, hplace, hentry⟩
    rw [find_eq_ok.2 ⟨place, hplace, hentry⟩]

/-- What is read at a path are the bytes of the file that it leads to. -/
theorem read?_eq_ok :
    files.read? path = .ok bytes ↔
      ∃ place, files.locate path = .ok place ∧ files.entry? place = some (.file bytes) := by
  rw [← find_eq_ok]
  unfold read?
  constructor
  · intro h
    split at h
    · next hfind => exact Except.ok.inj h ▸ hfind
    · cases h
    · cases h
  · intro h
    rw [h]

/-- A file that is there can be overwritten. -/
theorem write?_file (hplace : files.locate path = .ok place)
    (hfile : files.entry? place = some (.file old)) (bytes : Bytes) :
    files.write? path bytes = .ok (files.put place (.file bytes)) := by
  unfold write?
  rw [hplace]
  dsimp only
  rw [hfile]

/-! ## The same names -/

/-- The stores have the same names, each for a file in both or for a directory in both. -/
structure Alike (before after : Files) : Prop where
  root : after.root = before.root
  scratch : after.scratch = before.scratch
  names : after.entries.map Prod.fst = before.entries.map Prod.fst
  kinds : ∀ path,
    (after.entry? path).map Entry.isDirectory = (before.entry? path).map Entry.isDirectory

namespace Alike

theorem refl (files : Files) : Alike files files :=
  ⟨rfl, rfl, rfl, fun _ => rfl⟩

theorem trans {middle : Files} (h : Alike before middle) (h' : Alike middle after) :
    Alike before after :=
  ⟨h'.root.trans h.root, h'.scratch.trans h.scratch, h'.names.trans h.names,
    fun path => (h'.kinds path).trans (h.kinds path)⟩

/-- Overwriting a file keeps all names. -/
theorem put (h : files.entry? place = some (.file old)) (bytes : Bytes) :
    Alike files (files.put place (.file bytes)) := by
  have hput : files.put place (.file bytes) = { files with
      entries := files.entries.map fun (p, e) => if p = place then (p, .file bytes) else (p, e) } :=
    if_pos (by rw [lookup_of_file h]; rfl)
  refine ⟨by rw [hput], by rw [hput], ?_, fun path => ?_⟩
  · rw [hput]
    dsimp only
    rw [List.map_map]
    refine List.map_congr_left fun e _ => ?_
    show (if e.1 = place then (e.1, Entry.file bytes) else (e.1, e.2)).1 = e.1
    split <;> rfl
  · rw [entry?_put h]
    split
    · next hpath =>
        rw [hpath, h]
        rfl
    · rfl

variable (h : Alike before after)
include h

/-- In files that are alike the same path is absolute. -/
theorem absolute (path : Path) : after.absolute path = before.absolute path := by
  rw [Files.absolute, Files.absolute, home, home, h.root]

/-- In files that are alike a path leads to the same place. -/
theorem resolve (path : Path) : after.resolve path = before.resolve path := by
  rw [Files.resolve, Files.resolve, h.absolute]

/-- In files that are alike a name stands for the same path. -/
theorem named (text : Text) : after.named text = before.named text := by
  rw [Files.named, Files.named, h.root, h.scratch]

/-- Following names asks of each place on the way only whether it is a directory. -/
theorem follow (anchor : Anchor) (place names : List Text) :
    after.follow anchor place names = before.follow anchor place names := by
  induction names generalizing place with
  | nil => rfl
  | cons name rest ih =>
      unfold Files.follow
      rcases Entry.eq_of_isDirectory_eq (h.kinds { anchor, names := place.reverse }) with
        ⟨ha, hb⟩ | ⟨_, _, ha, hb⟩ | ⟨ha, hb⟩
      · rw [ha, hb]
      · rw [ha, hb]
      · rw [ha, hb]
        dsimp only
        rw [ih, ih]

/-- A path leads to the same place. -/
theorem locate (path : Path) : after.locate path = before.locate path := by
  unfold Files.locate
  dsimp only
  rw [h.absolute, h.follow]

/-- A path leads to the same entry if the entry at its place is the same. -/
theorem find_eq (heq : ∀ place, before.locate path = .ok place →
      after.entry? place = before.entry? place) :
    after.find path = before.find path := by
  unfold Files.find
  rw [h.locate]
  cases hplace : before.locate path with
  | error problem => rfl
  | ok place =>
      dsimp only [bind, Except.bind]
      rw [heq place hplace]

/-- In files that are alike the same places are files. -/
theorem file_iff : (∃ bytes, after.entry? place = some (.file bytes)) ↔
    ∃ bytes, before.entry? place = some (.file bytes) := by
  rcases Entry.eq_of_isDirectory_eq (h.kinds place) with
    ⟨ha, hb⟩ | ⟨_, _, ha, hb⟩ | ⟨ha, hb⟩
  all_goals simp [ha, hb]

/-- In files that are alike the same places are directories. -/
theorem directory_iff : after.entry? place = some .directory ↔
    before.entry? place = some .directory := by
  rcases Entry.eq_of_isDirectory_eq (h.kinds place) with
    ⟨ha, hb⟩ | ⟨_, _, ha, hb⟩ | ⟨ha, hb⟩
  all_goals simp [ha, hb]

/-- In files that are alike the same paths are files. -/
theorem isFile (path : Path) : after.isFile path = before.isFile path := by
  rw [Bool.eq_iff_iff, isFile_iff, isFile_iff, h.locate]
  simp only [exists_and_left, h.file_iff]

/-- In files that are alike the same paths are directories. -/
theorem isDirectory (path : Path) : after.isDirectory path = before.isDirectory path := by
  rw [Bool.eq_iff_iff, isDirectory_iff, isDirectory_iff, h.locate]
  simp only [h.directory_iff]

/-- The same names are found below a directory. -/
theorem below (path : Path) :
    (after.below path).map Prod.fst = (before.below path).map Prod.fst := by
  have hnames : ∀ files : Files, (files.below path).map Prod.fst =
      (files.entries.map Prod.fst).filterMap fun p =>
        if p.anchor = path.anchor ∧ path.names.isPrefixOf p.names ∧ p.names ≠ path.names then
          some (p.names.drop path.names.length)
        else none := by
    intro files
    rw [Files.below, List.map_filterMap, List.filterMap_map]
    refine List.filterMap_congr fun e _ => ?_
    show (if _ then some _ else none).map Prod.fst = if _ then _ else none
    split <;> rfl
  rw [hnames, hnames, h.names]

end Alike

/-! ## Stores that differ at some places -/

/-- The stores have the same names, and what stands at a place is the same but for some places. -/
structure SameBut (places : Path → Prop) (before after : Files) : Prop where
  alike : Alike before after
  entry : ∀ place, ¬ places place → after.entry? place = before.entry? place

namespace SameBut

variable {places : Path → Prop}

theorem refl (files : Files) : SameBut places files files :=
  ⟨.refl files, fun _ _ => rfl⟩

theorem trans {middle : Files} (h : SameBut places before middle)
    (h' : SameBut places middle after) : SameBut places before after :=
  ⟨h.alike.trans h'.alike, fun place hplace => (h'.entry place hplace).trans (h.entry place hplace)⟩

/-- A path that leads to none of the places is read the same. -/
theorem read? (h : SameBut places before after)
    (hpath : ∀ place, before.locate path = .ok place → ¬ places place) :
    after.read? path = before.read? path := by
  unfold Files.read?
  rw [h.alike.find_eq fun place hplace => h.entry place (hpath place hplace)]

end SameBut

/-! ## Other last names -/

/-- A path is followed one part after the other. -/
theorem follow_append (anchor : Anchor) (place front back : List Text) :
    files.follow anchor place (front ++ back) =
      (files.follow anchor place front).bind fun place => files.follow anchor place back := by
  induction front generalizing place with
  | nil => rfl
  | cons name front ih =>
      rw [List.cons_append, follow, follow]
      cases files.entry? { anchor, names := place.reverse } with
      | none => rfl
      | some entry =>
          cases entry with
          | file bytes => rfl
          | directory =>
              dsimp only
              rw [ih, ih]
              split <;> rfl

/-- A path with another name is absolute where the path is. -/
theorem absolute_withName (path : Path) (name : Text) :
    files.absolute (path.withName name) = (files.absolute path).withName name := by
  obtain ⟨anchor, names⟩ := path
  cases anchor <;> rfl

/-- An absolute path keeps its name. -/
theorem absolute_name (files : Files) (path : Path) :
    (files.absolute path).name = path.name := by
  obtain ⟨anchor, names⟩ := path
  cases anchor <;> rfl

/-- The last name of a path stands in the directory that the names before it lead to. -/
theorem locate_of_absolute {anchor : Anchor} {front : List Text} {name : Text}
    (hup : name ≠ (".." : Text)) (habsolute : files.absolute path = ⟨anchor, front ++ [name]⟩) :
    files.locate path = (files.follow anchor [] front).bind fun there =>
      match files.entry? ⟨anchor, there.reverse⟩ with
      | none => .error .notFound
      | some (.file _) => .error .notDirectory
      | some .directory => .ok ⟨anchor, there.reverse ++ [name]⟩ := by
  unfold locate
  dsimp only
  rw [habsolute, follow_append]
  cases files.follow anchor [] front with
  | error problem => rfl
  | ok there =>
      show ((files.follow anchor there [name]).bind fun names => _) = _
      rw [follow, if_neg hup, follow]
      cases hentry : files.entry? ⟨anchor, there.reverse⟩ with
      | none => simp [Except.bind, hentry]
      | some entry => cases entry <;> simp [Except.bind, hentry]

/-- A path with another last name leads to the same directory. -/
theorem locate_withName (h : files.locate path = .ok place) (hname : path.name ≠ [])
    (hup : path.name ≠ (".." : Text)) {name : Text} (hup' : name ≠ (".." : Text)) :
    place.name = path.name ∧ files.locate (path.withName name) = .ok (place.withName name) := by
  have hnames : (files.absolute path).names ≠ [] := by
    intro hnil
    refine hname ?_
    rw [← absolute_name files, Path.name, hnil]
    rfl
  have hlast : (files.absolute path).names.getLast hnames = path.name := by
    rw [← absolute_name files, Path.name, List.getLast?_eq_some_getLast hnames]
    rfl
  have habsolute : files.absolute path =
      ⟨(files.absolute path).anchor, (files.absolute path).names.dropLast ++ [path.name]⟩ := by
    rw [← hlast, List.dropLast_append_getLast hnames]
  have habsolute' : files.absolute (path.withName name) =
      ⟨(files.absolute path).anchor, (files.absolute path).names.dropLast ++ [name]⟩ :=
    absolute_withName path name
  rw [locate_of_absolute hup habsolute] at h
  rw [locate_of_absolute hup' habsolute']
  -- Both paths are followed to the same directory, and only then does the name matter.
  generalize (files.absolute path).anchor = anchor at h ⊢
  cases hfollow : files.follow anchor [] (files.absolute path).names.dropLast with
  | error problem =>
      rw [hfollow] at h
      cases h
  | ok there =>
      rw [hfollow] at h
      change (match files.entry? ⟨anchor, there.reverse⟩ with
        | none => _ | some (.file _) => _ | some .directory => _) = Except.ok place at h
      cases hentry : files.entry? ⟨anchor, there.reverse⟩ with
      | none =>
          rw [hentry] at h
          cases h
      | some entry =>
          rw [hentry] at h
          cases entry with
          | file bytes => cases h
          | directory =>
              obtain rfl := Except.ok.inj h
              refine ⟨by simp [Path.name], ?_⟩
              simp [Except.bind, hentry, Path.withName]

/-! ## Bytes in files -/

/-- The files with these bytes in the file that a path leads to. -/
def rewritten (files : Files) (path : Path) (bytes : Bytes) : Files :=
  match files.locate path with
  | .ok place => files.put place (.file bytes)
  | .error _ => files

end Files
end VerilogLayout

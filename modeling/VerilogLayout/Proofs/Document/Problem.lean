import Mathlib.Tactic.Common
import VerilogLayout.Document.Format
import VerilogLayout.Proofs.Files.Utf8
import VerilogLayout.Proofs.Json.Depth

/-!
# Documents whose tree is of no use

A document is formatted with its tree, or line by line if the tree cannot be had. Read
`load?_error_encoding` and `load?_error_limit` first: of all that can be wrong with a tree file only
bytes that are no text and too many open brackets are not counted as a problem of the tree.
`formatDocument_tree_file` is the result: whatever stands at a path, the document is formatted,
unless the file there has such bytes or brackets or the path cannot be the name of a file, and what
comes out is the aligned text, the rendered tree or the text itself.
-/

namespace VerilogLayout

variable {depths : Depths} {columns : Columns} {files : Files} {text : Text} {label : Option Text}
  {path : Path}

/-! ## With a tree -/

/-- A tree that has a text takes the place of the document. -/
theorem formatWithTree_ok {tree : Node} {rendered : Text}
    (h : Node.formatTree columns tree = .ok rendered) :
    (formatWithTree columns text label tree).1 =
      { text := rendered, changed := rendered ≠ text, mode := .tree } := by
  unfold Node.formatTree at h
  unfold formatWithTree
  cases hcounted : Node.formatTreeCounted columns tree with
  | ok counted =>
      rw [hcounted] at h
      obtain rfl := Except.ok.inj h
      rfl
  | error e =>
      rw [hcounted] at h
      cases h

/-- A tree that has none leaves the document as it is. -/
theorem formatWithTree_error {tree : Node} {e : RenderError}
    (h : Node.formatTree columns tree = .error e) :
    (formatWithTree columns text label tree).1 =
      { text, changed := false, errors := ["Formatting error: " ++ e.message], mode := .tree } := by
  unfold Node.formatTree at h
  unfold formatWithTree
  cases hcounted : Node.formatTreeCounted columns tree with
  | ok counted =>
      rw [hcounted] at h
      cases h
  | error e' =>
      -- There is only one error that a tree can have.
      cases e
      cases e'
      rfl

/-! ## Loading a tree -/

namespace Node

/-- A text that is no tree has a problem of the tree or passes a limit. -/
theorem of_parse?_eq_error {room : Nat} {source : Text} {path : Option Text} {e : LoadError}
    (h : parse? room source path = .error e) :
    (∃ problem, e = .tree problem) ∨ ∃ passed, e = .limit passed := by
  unfold parse? at h
  split at h
  · next value _ =>
      cases hchecked : check? value path with
      | ok node => rw [hchecked] at h; cases h
      | error problem =>
          rw [hchecked] at h
          exact .inl ⟨problem, (Except.error.inj h).symm⟩
  · exact .inl ⟨_, (Except.error.inj h).symm⟩
  · split at h
    · exact .inr ⟨_, (Except.error.inj h).symm⟩
    · exact .inl ⟨_, (Except.error.inj h).symm⟩

/-- The limit that a text passes is that of open brackets. -/
theorem parse?_error_limit {room : Nat} {source : Text} {path : Option Text} :
    (∃ passed, parse? room source path = .error (.limit passed)) ↔ Json.TooDeep room source := by
  unfold parse? Json.TooDeep
  cases Json.read? room source with
  | ok value =>
      refine iff_of_false ?_ nofun
      rintro ⟨passed, h⟩
      dsimp only at h
      cases hchecked : check? value path with
      | ok node => rw [hchecked] at h; cases h
      | error problem => rw [hchecked] at h; cases h
  | error e =>
      rcases e with fault | (action | count?)
      · exact iff_of_false nofun nofun
      · exact iff_of_true ⟨_, rfl⟩ ⟨action, rfl⟩
      · exact iff_of_false nofun nofun

end Node

/-- Loading fails for the bytes if and only if the file can be read and its bytes are no text. -/
theorem load?_error_encoding {room : Nat} {e : Utf8Error} :
    Node.load? room files path = .error (.encoding e) ↔
      ∃ bytes, files.read? path = .ok bytes ∧ Text.ofUtf8? bytes = .error e := by
  unfold Node.load?
  constructor
  · intro h
    split at h
    · cases h
    · cases h
    · next bytes hread =>
        refine ⟨bytes, hread, ?_⟩
        unfold Files.decodeText? at h
        cases hdecode : Text.ofUtf8? bytes with
        | error e' =>
            rw [hdecode] at h
            exact congrArg Except.error (LoadError.encoding.inj (Except.error.inj h))
        | ok source =>
            rw [hdecode] at h
            obtain ⟨e', he'⟩ | ⟨passed, hpassed⟩ := Node.of_parse?_eq_error h
            · cases he'
            · cases hpassed
  · rintro ⟨bytes, hread, hdecode⟩
    rw [hread]
    simp only [Files.decodeText?, hdecode, Except.map]

/-- Loading fails for the stack if and only if the file can be read and holds a text that is nested
too deep. -/
theorem load?_error_limit {room : Nat} :
    (∃ passed, Node.load? room files path = .error (.limit passed)) ↔
      ∃ bytes source, files.read? path = .ok bytes ∧ Text.ofUtf8? bytes = .ok source ∧
        Json.TooDeep room (Text.unifyNewlines source) := by
  unfold Node.load?
  constructor
  · rintro ⟨passed, h⟩
    split at h
    · cases h
    · cases h
    · next bytes hread =>
        unfold Files.decodeText? at h
        cases hdecode : Text.ofUtf8? bytes with
        | error e => rw [hdecode] at h; cases h
        | ok source =>
            rw [hdecode] at h
            exact ⟨bytes, source, hread, hdecode, Node.parse?_error_limit.1 ⟨passed, h⟩⟩
  · rintro ⟨bytes, source, hread, hdecode, hdeep⟩
    rw [hread]
    simp only [Files.decodeText?, hdecode, Except.map]
    exact Node.parse?_error_limit.2 hdeep

/-! ## Documents -/

namespace TreeSource

/-- A path that is no name of a file is not opened. -/
theorem resolve_unnameable {fault : NameFault} (h : path.toText.nameFault? = some fault) :
    (file path).resolve depths files = (.error (.path fault), [], files) := by
  unfold resolve
  dsimp only
  rw [h]

section
variable (hpath : path.toText.IsNameable)
include hpath

/-- A tree file that loads is the tree. -/
theorem resolve_loaded {tree : Node} (h : Node.load? depths.tree files path = .ok tree) :
    (file path).resolve depths files = (.ok (some tree), TreeMaker.loaded path tree, files) := by
  unfold resolve
  dsimp only
  rw [Text.nameFault?_eq_none.2 hpath]
  dsimp only
  rw [h]

/-- A tree file that does not load is a failure to load. -/
theorem resolve_failed {e : LoadError} (h : Node.load? depths.tree files path = .error e) :
    (file path).resolve depths files = (.error (.loading e), [], files) := by
  unfold resolve
  dsimp only
  rw [Text.nameFault?_eq_none.2 hpath]
  dsimp only
  rw [h]

end

end TreeSource

open TreeSource (resolve_unnameable resolve_loaded resolve_failed)

/-- A path that is no name of a file ends the formatting. -/
theorem formatDocument_unnameable {fault : NameFault} (h : path.toText.nameFault? = some fault) :
    (formatDocument depths columns files text label (.file path)).1 = .error (.path fault) := by
  rw [formatDocument, resolve_unnameable h]
  rfl

section
variable (hpath : path.toText.IsNameable)
include hpath

/-- A tree that is loaded is rendered. -/
theorem formatDocument_loaded {tree : Node} (h : Node.load? depths.tree files path = .ok tree) :
    (formatDocument depths columns files text label (.file path)).1 =
      .ok (formatWithTree columns text label tree).1 := by
  rw [formatDocument, resolve_loaded hpath h]

/-- A problem of the tree is told as a warning, and the document is formatted line by line. -/
theorem formatDocument_problem {e : TreeError}
    (h : Node.load? depths.tree files path = .error (.tree e)) :
    (formatDocument depths columns files text label (.file path)).1 =
      .ok (formatLines columns text e.report.format).1 := by
  rw [formatDocument, resolve_failed hpath h]
  rfl

/-- Bytes that are no text and a stack without room end the formatting. -/
theorem formatDocument_failed {e : LoadError} (h : Node.load? depths.tree files path = .error e)
    (htree : ∀ problem, e ≠ .tree problem) :
    (formatDocument depths columns files text label (.file path)).1 = .error (.loading e) := by
  rw [formatDocument, resolve_failed hpath h]
  cases e with
  | tree problem => exact absurd rfl (htree problem)
  | encoding e | limit passed => rfl

end

/-- What a tree file has to hold, if it can be read, for a document to be formatted with it: a text
that is not nested too deep. -/
def IsLoadable (depths : Depths) (bytes : Bytes) : Prop :=
  ∃ source, Text.ofUtf8? bytes = .ok source ∧
    ¬ Json.TooDeep depths.tree (Text.unifyNewlines source)

/-- A file that can be loaded gives a tree or has a problem that counts as one of the tree. -/
theorem load?_cases (hbytes : ∀ bytes, files.read? path = .ok bytes → IsLoadable depths bytes) :
    (∃ tree, Node.load? depths.tree files path = .ok tree) ∨
      ∃ e, Node.load? depths.tree files path = .error (.tree e) := by
  cases hload : Node.load? depths.tree files path with
  | ok tree => exact .inl ⟨tree, rfl⟩
  | error e =>
      cases e with
      | tree e => exact .inr ⟨e, rfl⟩
      | encoding e =>
          obtain ⟨bytes, hread, hdecode⟩ := load?_error_encoding.1 hload
          obtain ⟨source, hsource, -⟩ := hbytes bytes hread
          rw [hdecode] at hsource
          cases hsource
      | limit passed =>
          obtain ⟨bytes, source, hread, hdecode, hdeep⟩ := load?_error_limit.1 ⟨passed, hload⟩
          obtain ⟨other, hother, hshallow⟩ := hbytes bytes hread
          obtain rfl := Except.ok.inj (hdecode.symm.trans hother)
          exact absurd hdeep hshallow

/-- A document is formatted with a tree file if and only if the path can be the name of a file and
what stands there, if it can be read, can be loaded. -/
theorem exists_formatDocument_file :
    (∃ formatted, (formatDocument depths columns files text label (.file path)).1 =
        .ok formatted) ↔
      path.toText.IsNameable ∧
        ∀ bytes, files.read? path = .ok bytes → IsLoadable depths bytes := by
  constructor
  · rintro ⟨formatted, hresult⟩
    cases hname : path.toText.nameFault? with
    | some fault =>
        rw [formatDocument_unnameable hname] at hresult
        cases hresult
    | none =>
        have hpath := Text.nameFault?_eq_none.1 hname
        refine ⟨hpath, fun bytes hread => ?_⟩
        cases hdecode : Text.ofUtf8? bytes with
        | error e =>
            have hload : Node.load? depths.tree files path = .error (.encoding e) :=
              load?_error_encoding.2 ⟨bytes, hread, hdecode⟩
            rw [formatDocument_failed hpath hload nofun] at hresult
            cases hresult
        | ok source =>
            refine ⟨source, hdecode, fun hdeep => ?_⟩
            obtain ⟨passed, hload⟩ := load?_error_limit.2 ⟨bytes, source, hread, hdecode, hdeep⟩
            rw [formatDocument_failed hpath hload nofun] at hresult
            cases hresult
  · rintro ⟨hpath, hbytes⟩
    obtain ⟨tree, hload⟩ | ⟨e, hload⟩ := load?_cases hbytes
    · exact ⟨_, formatDocument_loaded hpath hload⟩
    · exact ⟨_, formatDocument_problem hpath hload⟩

/-- Whatever the tree comes from, a formatted document counts as changed if its text is another. -/
theorem changed_iff {source : TreeSource} {formatted : Formatted}
    (h : (formatDocument depths columns files text label source).1 = .ok formatted) :
    formatted.changed = true ↔ formatted.text ≠ text := by
  have hlines : ∀ warning, (formatLines columns text warning).1.changed = true ↔
      (formatLines columns text warning).1.text ≠ text := fun warning => decide_eq_true_iff
  have htree : ∀ tree, (formatWithTree columns text label tree).1.changed = true ↔
      (formatWithTree columns text label tree).1.text ≠ text := by
    intro tree
    cases hrendered : Node.formatTree columns tree with
    | ok rendered =>
        rw [formatWithTree_ok hrendered]
        exact decide_eq_true_iff
    | error e =>
        rw [formatWithTree_error hrendered]
        simp
  unfold formatDocument at h
  dsimp only at h
  split at h
  · obtain rfl := Except.ok.inj h
    exact htree _
  · obtain rfl := Except.ok.inj h
    exact hlines _
  · split at h
    · obtain rfl := Except.ok.inj h
      exact hlines _
    · cases h

/-- A document with a tree file is formatted, unless the path cannot be the name of a file or the
file holds no text or one that is nested too deep. It comes out aligned line by line with a warning
if no tree is loaded, and as it was if the tree has no text; and it counts as changed if and only if
it has another text. -/
theorem formatDocument_tree_file (depths : Depths) (columns : Columns) (files : Files)
    (text : Text) (label : Option Text) (path : Path) :
    let result := (formatDocument depths columns files text label (.file path)).1
    ((∃ formatted, result = .ok formatted) ↔
      path.toText.IsNameable ∧
        ∀ bytes, files.read? path = .ok bytes → IsLoadable depths bytes) ∧
    ∀ formatted, result = .ok formatted →
      (formatted.changed = true ↔ formatted.text ≠ text) ∧
      (∀ e, Node.load? depths.tree files path = .error e →
        formatted.mode = .lines ∧ formatted.text = alignText columns text ∧
          formatted.warnings ≠ [] ∧ formatted.errors = []) ∧
      ∀ tree, Node.load? depths.tree files path = .ok tree →
        formatted.mode = .tree ∧
          (∀ rendered, Node.formatTree columns tree = .ok rendered →
            formatted.text = rendered ∧ formatted.errors = []) ∧
          ∀ e, Node.formatTree columns tree = .error e →
            formatted.text = text ∧ formatted.changed = false ∧ formatted.errors ≠ [] := by
  refine ⟨exists_formatDocument_file, fun formatted hresult => ⟨changed_iff hresult, ?_, ?_⟩⟩
  all_goals
    obtain ⟨hpath, hbytes⟩ := exists_formatDocument_file.1 ⟨formatted, hresult⟩
  · intro e hload
    obtain ⟨tree, htree⟩ | ⟨problem, hproblem⟩ := load?_cases hbytes
    · rw [hload] at htree
      cases htree
    · rw [formatDocument_problem hpath hproblem] at hresult
      obtain rfl := Except.ok.inj hresult
      exact ⟨rfl, rfl, List.cons_ne_nil _ _, rfl⟩
  · intro tree hload
    rw [formatDocument_loaded hpath hload] at hresult
    obtain rfl := Except.ok.inj hresult
    refine ⟨?_, fun rendered hrendered => ?_, fun e hrendered => ?_⟩
    · cases hrendered : Node.formatTree columns tree with
      | ok rendered => rw [formatWithTree_ok hrendered]
      | error e => rw [formatWithTree_error hrendered]
    · rw [formatWithTree_ok hrendered]
      exact ⟨rfl, rfl⟩
    · rw [formatWithTree_error hrendered]
      exact ⟨rfl, rfl, List.cons_ne_nil _ _⟩

end VerilogLayout

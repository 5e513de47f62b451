import VerilogLayout.Proofs.Document.Problem
import VerilogLayout.Proofs.Files.Utf8
import VerilogLayout.Proofs.Source.Aligned

/-!
# Documents that are formatted again

What a document is formatted to depends on its tree and its text alone: `formattedWith`. Writing it
to a file and reading the file unifies the ends of its lines, and `formattedWith_again` says that
what comes back is formatted to the same text as before. So a formatted document is left as it is
the next time if and only if it has no carriage return in it; `not_mem_formattedWith_iff` says that
only a tree can bring one.
-/

namespace VerilogLayout

variable {depths : Depths} {room : Nat} {columns : Columns} {files : Files} {text : Text}
    {label : Option Text} {path : Path}
  {tree : Node} {formatted : Formatted}

/-! ## Trees in files -/

namespace Node

/-- The name of its file does not matter for a tree. -/
theorem parse?_eq_ok {source : Text} {path : Option Text} :
    parse? room source path = .ok tree ↔ parse? room source none = .ok tree := by
  unfold parse? check?
  rcases Json.read? room source with (fault | passed) | value
  · simp
  · dsimp only
    split <;> simp
  · dsimp only
    cases ofValue? value <;> simp [Except.mapError]

/-- A tree is loaded from the text of a file. -/
theorem load?_eq_ok :
    load? room files path = .ok tree ↔
      ∃ bytes source, files.read? path = .ok bytes ∧ Files.decodeText? bytes = .ok source ∧
        parse? room source none = .ok tree := by
  unfold load?
  constructor
  · intro h
    split at h
    · cases h
    · cases h
    · next bytes hread =>
        split at h
        · cases h
        · next source hdecoded => exact ⟨bytes, source, hread, hdecoded, parse?_eq_ok.1 h⟩
  · rintro ⟨bytes, source, hread, hdecoded, hparsed⟩
    rw [hread]
    dsimp only
    rw [hdecoded]
    exact parse?_eq_ok.2 hparsed

end Node

/-- A tree is loaded again if its bytes are the same. -/
theorem load?_again {before after : Files} (h : after.read? path = before.read? path) :
    Node.load? room after path = Node.load? room before path := by
  unfold Node.load?
  rw [h]

/-- A document is formatted in the same way if its tree file is read the same. -/
theorem formatDocument_file_again {before after : Files}
    (h : after.read? path = before.read? path) :
    (formatDocument depths columns after text label (.file path)).1 =
      (formatDocument depths columns before text label (.file path)).1 := by
  have hload : Node.load? depths.tree after path = Node.load? depths.tree before path :=
    load?_again h
  cases hname : path.toText.nameFault? with
  | some fault => rw [formatDocument_unnameable hname, formatDocument_unnameable hname]
  | none =>
      have hpath := Text.nameFault?_eq_none.1 hname
      cases hbefore : Node.load? depths.tree before path with
      | ok tree =>
          rw [formatDocument_loaded hpath hbefore,
            formatDocument_loaded hpath (hload.trans hbefore)]
      | error e =>
          cases e with
          | tree e =>
              rw [formatDocument_problem hpath hbefore,
                formatDocument_problem hpath (hload.trans hbefore)]
          | encoding e | limit passed =>
              rw [formatDocument_failed hpath hbefore nofun,
                formatDocument_failed hpath (hload.trans hbefore) nofun]

/-! ## What a document is formatted to -/

/-- A text formatted with a tree if there is one, whatever is said about it. -/
def formattedWith (columns : Columns) (tree? : Option Node) (text : Text) : Formatted :=
  match tree? with
  | some tree => (formatWithTree columns text none tree).1
  | none => (formatLines columns text []).1

/-- The label of a text does not show in what is formatted. -/
theorem formatWithTree_label :
    (formatWithTree columns text label tree).1 = (formatWithTree columns text none tree).1 := by
  unfold formatWithTree
  cases Node.formatTreeCounted columns tree <;> rfl

/-- What a document with a tree file is formatted to depends on the tree that is loaded alone. -/
theorem formatDocument_file_eq
    (h : (formatDocument depths columns files text label (.file path)).1 = .ok formatted) :
    let expected := formattedWith columns (Node.load? depths.tree files path).toOption text
    formatted.text = expected.text ∧ formatted.errors = expected.errors := by
  obtain ⟨hpath, hbytes⟩ := exists_formatDocument_file.1 ⟨formatted, h⟩
  obtain ⟨tree, hload⟩ | ⟨e, hload⟩ := load?_cases hbytes
  · rw [formatDocument_loaded hpath hload, formatWithTree_label] at h
    obtain rfl := Except.ok.inj h
    rw [hload]
    exact ⟨rfl, rfl⟩
  · rw [formatDocument_problem hpath hload] at h
    obtain rfl := Except.ok.inj h
    rw [hload]
    exact ⟨rfl, rfl⟩

/-! ## The second time -/

theorem not_mem_alignText {c : CodePoint} (hc : ¬ Watch.IsNeat c) (hline : c ≠ '\n')
    (h : c ∉ text) :
    c ∉ alignText columns text := by
  intro hmem
  -- The character stands in an aligned line, which has only new characters that are neat.
  obtain hmem | ⟨line, hmem, hcline⟩ := Text.mem_of_mem_intercalate hmem
  · exact hline (List.mem_singleton.1 hmem)
  · exact not_mem_alignLines columns hc
      (fun line hline hc => h (Text.mem_of_mem_splitOn hline hc)) {} line hmem hcline

/-- A text that is formatted, written to a file and read from it is formatted to the same text. -/
theorem formattedWith_again (harray : columns .arrayKeyword = columns .signalKeyword)
    (tree? : Option Node) (htext : .char '\r' ∉ text) :
    let formatted := formattedWith columns tree? text
    let again := formattedWith columns tree? (Text.unifyNewlines formatted.text)
    again.text = formatted.text ∧ again.errors = formatted.errors := by
  cases tree? with
  | none =>
      have hformatted : .char '\r' ∉ alignText columns text :=
        not_mem_alignText (by decide) (by decide) htext
      have hagain : alignText columns (alignText columns text) = alignText columns text := by
        rw [alignText, splitOn_alignText, (alignLines_alignLines columns harray _ {}).1]
        rfl
      show alignText columns (Text.unifyNewlines (alignText columns text)) = _ ∧ _
      rw [Text.unifyNewlines_eq_self hformatted]
      exact ⟨hagain, rfl⟩
  | some tree =>
      -- A tree that has a text does not look at the text that it stands for.
      dsimp only [formattedWith]
      cases hrendered : Node.formatTree columns tree with
      | ok rendered => simp only [formatWithTree_ok hrendered, and_self]
      | error e =>
          simp only [formatWithTree_error hrendered, and_true]
          exact Text.unifyNewlines_eq_self htext

/-- A formatted text has a carriage return in it only if its tree brings one. -/
theorem not_mem_formattedWith_iff {tree? : Option Node} (htext : .char '\r' ∉ text)
    (herrors : (formattedWith columns tree? text).errors = []) :
    .char '\r' ∉ (formattedWith columns tree? text).text ↔
      ∀ tree rendered, tree? = some tree → Node.formatTree columns tree = .ok rendered →
        .char '\r' ∉ rendered := by
  cases tree? with
  | none =>
      have hformatted : .char '\r' ∉ alignText columns text :=
        not_mem_alignText (by decide) (by decide) htext
      exact ⟨fun _ tree _ h => (nomatch h), fun _ => hformatted⟩
  | some tree =>
      cases hrendered : Node.formatTree columns tree with
      | ok rendered =>
          rw [formattedWith, formatWithTree_ok hrendered]
          constructor
          · intro h other _ hother hrendered'
            obtain rfl := Option.some.inj hother
            rw [hrendered] at hrendered'
            exact Except.ok.inj hrendered' ▸ h
          · intro h
            exact h tree rendered rfl hrendered
      | error e =>
          rw [formattedWith, formatWithTree_error hrendered] at herrors
          cases herrors

end VerilogLayout

import VerilogLayout.Proofs.Source.Port

/-!
# Values behind an equals sign

A value is written tight, behind a space. It is read back from there, whatever gap its semicolon
stands behind, as `statement?_written` says.
-/

namespace VerilogLayout.LineForm

open Scan Line

/-- A value as it is written. -/
structure IsValue (s : Text) : Prop where
  tight : s.IsTight
  not_mem : .char ';' ∉ s

/-- A semicolon behind a gap that may be empty. -/
theorem gapped_semicolon (n : Nat) : gapped n [.char ';'] = Text.spaces n ++ [.char ';'] :=
  gapped_of_ne_nil n (List.cons_ne_nil _ _)

theorem isValue_trim {s : Text} (h : .char ';' ∉ s) : IsValue (Text.trim s) := by
  obtain ⟨front, back, hs, -, -, htight⟩ := Text.exists_trim s
  refine ⟨htight, fun hmem => h ?_⟩
  rw [hs]
  exact List.mem_append_left _ (List.mem_append_right _ hmem)

theorem statement?_append {body : Text} (hne : body ≠ []) (h : .char ';' ∉ body) :
    statement? (body ++ [.char ';']) = some body := by
  unfold statement?
  dsimp only
  rw [Text.dropLast, List.dropLast_concat, List.getLast?_concat, if_pos ⟨rfl, hne, h⟩]

theorem of_statement? {s body : Text} (h : statement? s = some body) :
    s = body ++ [.char ';'] ∧ .char ';' ∉ body := by
  unfold statement? at h
  dsimp only at h
  split at h
  · next hends =>
      obtain ⟨hlast, -, hnot⟩ := hends
      obtain rfl := Option.some.inj h
      obtain ⟨front, rfl⟩ := List.getLast?_eq_some_iff.1 hlast
      rw [Text.dropLast, List.dropLast_concat] at hnot ⊢
      exact ⟨rfl, hnot⟩
  · cases h

/-- The value of a statement is read back. -/
theorem statement?_written {value : Text} (h : IsValue value) (n : Nat) :
    (statement? (.char ' ' :: (value ++ gapped n [.char ';']))).map Text.trim = some value := by
  have hnot : .char ';' ∉ .char ' ' :: (value ++ Text.spaces n) := by
    simp [h.not_mem, Text.spaces]
  have htrim := Text.trim_append (Text.allBlank_spaces 1) h.tight (Text.allBlank_spaces n)
  rw [gapped_semicolon, ← List.append_assoc, ← List.cons_append,
    statement?_append (List.cons_ne_nil _ _) hnot]
  exact congrArg some htrim

/-- Between the equals sign and the semicolon only the gaps around the value are changed. -/
theorem mayBecome_body (body : Text) (n : Nat) :
    Watch.MayBecome (body ++ [.char ';'])
      (.char ' ' :: (Text.trim body ++ gapped n [.char ';'])) := by
  obtain ⟨front, back, hbody, hfront, hback, -⟩ := Text.exists_trim body
  have hgap := Watch.MayBecome.gap (fun c hc => Watch.isMild_of_isBlank (hback c hc))
    (fun c hc => Watch.isNeat_of_mem_spaces (n := n) hc) (c := ';') (by decide) (Text.trim body) []
  have hmild : ∀ c ∈ front, Watch.IsMild c := fun c hc => Watch.isMild_of_isBlank (hfront c hc)
  have hall := Watch.MayBecome.append (.of_isMild hmild (t := [.char ' ']) (by decide))
    (Watch.endsPlain_of_isMild hmild) hgap
  have hsplit : body ++ [.char ';'] = front ++ (Text.trim body ++ (back ++ [.char ';'])) := by
    rw [← List.append_assoc, ← List.append_assoc, ← hbody]
  rw [hsplit, gapped_semicolon]
  exact hall

theorem mayBecome_value (body : Text) (n : Nat) :
    Watch.MayBecome (.char '=' :: (body ++ [.char ';']))
      (.char '=' :: .char ' ' :: (Text.trim body ++ gapped n [.char ';'])) :=
  .append (.refl [.char '=']) (Watch.endsPlain_append (s := []) rfl) (mayBecome_body body n)

end VerilogLayout.LineForm

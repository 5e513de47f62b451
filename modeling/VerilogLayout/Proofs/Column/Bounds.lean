import VerilogLayout.Proofs.Header.Printed
import VerilogLayout.Proofs.Source.Ink

/-!
# Bounds that are found again

`Range.format` puts two bounds into their fields and `Range.split?` takes them out. The brackets of
a bound close one another and its colons stand inside of them, so the colon between the fields is
the only one outside of brackets, however deep the brackets of the bounds go. `range_normal_form`
says this for all bounds and widths, and that the normal form of any text is a fixed point with the
ink of the text.
-/

namespace VerilogLayout

open Text (AllBlank)

namespace Bracket

/-- Behind brackets that close one another no more of them are open than before. -/
theorem depthBehind_of_closes {depth : Nat} {s : Text} (h : closes depth s) :
    depthBehind depth s = 0 := by
  induction s generalizing depth with
  | nil =>
      obtain rfl : depth = 0 := of_decide_eq_true h
      rfl
  | cons c s ih =>
      rw [closes] at h
      show depthBehind (depthAfter depth c) s = 0
      rw [depthAfter]
      split
      · next hopening =>
          rw [if_pos hopening] at h
          exact ih h
      · next hopening =>
          rw [if_neg hopening] at h
          split
          · next hclosing =>
              rw [if_pos hclosing, Bool.and_eq_true, decide_eq_true_eq] at h
              have hdepth : (depth : Int) - 1 = (depth - 1 : Nat) := by omega
              rw [hdepth]
              exact ih h.2
          · next hclosing =>
              rw [if_neg hclosing] at h
              exact ih h

end Bracket

namespace Range

/-- What may stand on one side of the colon of a range: a text whose brackets close one another,
with its colons inside of them. -/
structure IsBound (s : Text) : Prop where
  not_blank : ¬ AllBlank s
  balanced : Bracket.isBalanced s
  whole : Bracket.Whole ':' 0 s

instance (s : Text) : Decidable (IsBound s) :=
  decidable_of_iff (_ ∧ _ ∧ _) ⟨fun h => ⟨h.1, h.2.1, h.2.2⟩, fun h => ⟨h.1, h.2, h.3⟩⟩

/-- The blanks around a bound do not belong to it. -/
theorem IsBound.trim {s : Text} (h : IsBound s) :
    Text.IsTight (Text.trim s) ∧ Text.trim s ≠ [] ∧ Bracket.Whole ':' 0 (Text.trim s) ∧
      Bracket.depthBehind 0 (Text.trim s) = 0 := by
  obtain ⟨front, back, hsplit, hfront, hback, htight⟩ := Text.exists_trim s
  have hwhole := Bracket.whole_surrounded hfront hback (s := Text.trim s) 0
  rw [← hsplit] at hwhole
  refine ⟨htight, fun hnil => h.not_blank ?_, hwhole.1.1 h.whole,
    hwhole.2.symm.trans (Bracket.depthBehind_of_closes h.balanced)⟩
  rw [hsplit, hnil, List.append_nil]
  exact List.forall_mem_append.2 ⟨hfront, hback⟩

/-- Trimmed bounds are the bounds of a range, unless the upper one ends in a sign of a part select.
-/
theorem areBounds_trim {upper lower : Text} (hupper : IsBound upper) (hlower : IsBound lower)
    (hsign : Text.endsWith (Text.trim upper) "+" = false ∧
      Text.endsWith (Text.trim upper) "-" = false) :
    AreBounds (Text.trim upper) (Text.trim lower) := by
  obtain ⟨hupperTight, hupperNil, hupperWhole, hdepth⟩ := hupper.trim
  obtain ⟨hlowerTight, hlowerNil, hlowerWhole, -⟩ := hlower.trim
  exact ⟨hupperTight, hlowerTight, hupperNil, hlowerNil, hupperWhole, hlowerWhole, hdepth, hsign⟩

/-- Blanks around the bounds are not written. -/
theorem format_trim (upper lower : Text) (m n : Nat) :
    format (Text.trim upper) (Text.trim lower) m n = format upper lower m n := by
  rw [format, format, Text.trim_trim, Text.trim_trim]

end Range

open Range

/-- The normal form of any text is a fixed point and moves only blanks, and the bounds of a range
are found again in fields of any widths. -/
theorem range_normal_form (columns : Columns) :
    (∀ s, normalise columns (normalise columns s) = normalise columns s ∧
      Text.ink (normalise columns s) = Text.ink s) ∧
    ∀ upper lower upperWidth lowerWidth, IsBound upper → IsBound lower →
      Text.endsWith (Text.trim upper) "+" = false ∧
        Text.endsWith (Text.trim upper) "-" = false →
      split? (format upper lower upperWidth lowerWidth) =
        some (Text.trim upper, Text.trim lower) := by
  refine ⟨fun s => ⟨normalise_normalise columns s, ink_normalise columns s⟩, ?_⟩
  intro upper lower upperWidth lowerWidth hupper hlower hsign
  rw [← format_trim]
  exact split?_format (areBounds_trim hupper hlower hsign) upperWidth lowerWidth

/-- Bounds with colons inside of brackets of two kinds, the upper one wider than its field. -/
theorem range_normal_form_nested :
    let upper : Text := " f(a[3:0]) - 1"
    let lower : Text := "\x7bb, c[1:0]\x7d\t"
    IsBound upper ∧ IsBound lower ∧
      format upper lower 2 16 = ("[f(a[3:0]) - 1:\x7bb, c[1:0]\x7d     ]" : Text) ∧
      split? (format upper lower 2 16) =
        some (("f(a[3:0]) - 1" : Text), ("\x7bb, c[1:0]\x7d" : Text)) := by
  intro upper lower
  have hupper : IsBound upper := by decide +kernel
  have hlower : IsBound lower := by decide +kernel
  have hsplit := (range_normal_form Columns.standard).2 upper lower 2 16 hupper hlower
    (by decide +kernel)
  exact ⟨hupper, hlower, by decide +kernel, hsplit.trans (by decide +kernel)⟩

end VerilogLayout

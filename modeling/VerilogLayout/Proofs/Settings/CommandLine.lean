import VerilogLayout.Text.Arguments

/-!
# Command lines

`IsCommandLine s` says that the quotes of `s` are closed and that every backslash has a character
to protect, without saying how the arguments are cut. `exists_arguments?` says that exactly these
texts have arguments: between two steps of the reader an open quote in front makes what is left a
command line again.
-/

namespace VerilogLayout.Text

/-- What may stand between double quotes: a backslash protects the character behind it. -/
inductive IsDoubleQuoted : Text → Prop
  | nil : IsDoubleQuoted []
  | plain {c : CodePoint} {s : Text} (hquote : c ≠ '"') (hslash : c ≠ '\\') (h : IsDoubleQuoted s) :
      IsDoubleQuoted (c :: s)
  | escaped {c : CodePoint} {s : Text} (h : IsDoubleQuoted s) :
      IsDoubleQuoted (.char '\\' :: c :: s)

/-- A text whose quotes are closed and whose backslashes protect a character each. -/
inductive IsCommandLine : Text → Prop
  | nil : IsCommandLine []
  | plain {c : CodePoint} {s : Text} (hslash : c ≠ '\\') (hsingle : c ≠ '\'') (hdouble : c ≠ '"')
      (h : IsCommandLine s) : IsCommandLine (c :: s)
  | escaped {c : CodePoint} {s : Text} (h : IsCommandLine s) : IsCommandLine (.char '\\' :: c :: s)
  | single {body s : Text} (hbody : .char '\'' ∉ body) (h : IsCommandLine s) :
      IsCommandLine (.char '\'' :: (body ++ .char '\'' :: s))
  | double {body s : Text} (hbody : IsDoubleQuoted body) (h : IsCommandLine s) :
      IsCommandLine (.char '"' :: (body ++ .char '"' :: s))

namespace IsCommandLine

/-- Between single quotes any character but the quote may stand. -/
theorem cons_single {c : CodePoint} {s : Text} (hc : c ≠ '\'')
    (h : IsCommandLine (.char '\'' :: s)) :
    IsCommandLine (.char '\'' :: c :: s) := by
  cases h with
  | plain _ hsingle _ _ => exact absurd rfl hsingle
  | @single body s hbody h =>
      show IsCommandLine (.char '\'' :: (c :: body ++ .char '\'' :: s))
      exact .single (List.not_mem_cons_of_ne_of_not_mem (Ne.symm hc) hbody) h

/-- One more plain character may stand in double quotes. -/
theorem cons_double {c : CodePoint} {s : Text} (hquote : c ≠ '"') (hslash : c ≠ '\\')
    (h : IsCommandLine (.char '"' :: s)) : IsCommandLine (.char '"' :: c :: s) := by
  cases h with
  | plain _ _ hdouble _ => exact absurd rfl hdouble
  | @double body s hbody h =>
      show IsCommandLine (.char '"' :: (c :: body ++ .char '"' :: s))
      exact .double (.plain hquote hslash hbody) h

/-- One more character behind a backslash may stand in double quotes. -/
theorem cons_cons_double {c : CodePoint} {s : Text} (h : IsCommandLine (.char '"' :: s)) :
    IsCommandLine (.char '"' :: .char '\\' :: c :: s) := by
  cases h with
  | plain _ _ hdouble _ => exact absurd rfl hdouble
  | @double body s hbody h =>
      show IsCommandLine (.char '"' :: (.char '\\' :: c :: body ++ .char '"' :: s))
      exact .double (.escaped hbody) h

end IsCommandLine

namespace ArgumentState

/-- The quote that is open in a state. -/
def quote : ArgumentState → Text
  | .outside | .inside => []
  | .singleQuoted => [.char '\'']
  | .doubleQuoted => [.char '"']

/-- Outside of quotes none is open. -/
theorem quote_eq_nil {state : ArgumentState} (hsingle : state ≠ .singleQuoted)
    (hdouble : state ≠ .doubleQuoted) : state.quote = [] := by
  cases state with
  | outside | inside => rfl
  | singleQuoted => exact absurd rfl hsingle
  | doubleQuoted => exact absurd rfl hdouble

end ArgumentState

/-- A character between arguments starts nothing. -/
theorem IsCommandLine.cons_of_separates {c : CodePoint} {s : Text} (hslash : c ≠ '\\')
    (hc : separates c) (h : IsCommandLine s) : IsCommandLine (c :: s) := by
  refine .plain hslash ?_ ?_ h
  · rintro rfl
    cases hc
  · rintro rfl
    cases hc

/-- What can be read in a state is a command line with the open quote in front. -/
theorem isCommandLine_of_go {state : ArgumentState} {read s : Text} {words : List Text}
    (h : arguments?.go state read s = .ok words) : IsCommandLine (state.quote ++ s) := by
  have hslash : ∀ {c : CodePoint} {s : Text}, (c = '\\' → s = [] → False) →
      (∀ d rest, c = '\\' → s = d :: rest → False) → c ≠ '\\' := by
    intro c s hlast hnext hc
    cases s with
    | nil => exact hlast hc rfl
    | cons d rest => exact hnext d rest hc rfl
  fun_induction arguments?.go state read s generalizing words with
  | case1 | case2 => exact .nil
  | case3 | case4 | case5 | case6 => cases h
  | case7 read d s ih => exact (ih h).cons_single (by decide)
  | case8 read d s hd ih => exact (ih h).cons_cons_double
  | case9 read d s hd ih => exact (ih h).cons_cons_double
  | case10 state read d s hsingle hdouble ih =>
      rw [ArgumentState.quote_eq_nil hsingle hdouble]
      exact .escaped (ih h)
  | case11 read s _ _ ih =>
      show IsCommandLine (.char '\'' :: ([] ++ .char '\'' :: s))
      exact .single List.not_mem_nil (ih h)
  | case12 read c s _ _ hc ih => exact (ih h).cons_single hc
  | case13 read s _ _ ih =>
      show IsCommandLine (.char '"' :: ([] ++ .char '"' :: s))
      exact .double .nil (ih h)
  | case14 read c s hlast hnext hc ih => exact (ih h).cons_double hc (hslash hlast hnext)
  | case15 read c s hlast hnext hseparates _ _ ih =>
      cases hrest : arguments?.go .outside [] s with
      | error fault => rw [hrest] at h; cases h
      | ok others => exact (ih hrest).cons_of_separates (hslash hlast hnext) hseparates
  | case16 state read c s hlast hnext hseparates hsingle hdouble _ ih =>
      rw [ArgumentState.quote_eq_nil hsingle hdouble]
      exact (ih h).cons_of_separates (hslash hlast hnext) hseparates
  -- A quote opens.
  | case17 state read s hsingle hdouble _ _ _ ih | case18 state read s hsingle hdouble _ _ _ _ ih =>
      rw [ArgumentState.quote_eq_nil hsingle hdouble]
      exact ih h
  | case19 state read c s hlast hnext _ hc hc' hsingle hdouble ih =>
      rw [ArgumentState.quote_eq_nil hsingle hdouble]
      exact .plain (hslash hlast hnext) hc hc' (ih h)

/-! ## Every command line is read -/

/-- Single quotes keep what they hold together. -/
theorem go_singleQuoted {body : Text} (h : .char '\'' ∉ body) (read s : Text) :
    arguments?.go .singleQuoted read (body ++ .char '\'' :: s) =
      arguments?.go .inside (body.reverse ++ read) s := by
  induction body generalizing read with
  | nil => rfl
  | cons c body ih =>
      obtain ⟨hc, hbody⟩ := not_or.1 (mt List.mem_cons.2 h)
      have hstep : arguments?.go .singleQuoted read (c :: (body ++ .char '\'' :: s)) =
          arguments?.go .singleQuoted (c :: read) (body ++ .char '\'' :: s) := by
        obtain ⟨d, rest, hrest⟩ := List.exists_cons_of_ne_nil
          (List.append_ne_nil_of_right_ne_nil body (List.cons_ne_nil (.char '\'') s))
        rw [hrest]
        by_cases hslash : c = '\\'
        · subst hslash
          rw [arguments?.go]
        · rw [arguments?.go, if_neg (Ne.symm hc)]
          · exact fun h => absurd h hslash
          · exact fun _ _ h => absurd h hslash
      rw [List.cons_append, hstep, ih hbody, List.reverse_cons, List.append_assoc]
      rfl

/-- Double quotes are read to their end. -/
theorem go_doubleQuoted {body : Text} (h : IsDoubleQuoted body) (read s : Text) :
    ∃ kept, arguments?.go .doubleQuoted read (body ++ .char '"' :: s) =
      arguments?.go .inside kept s := by
  induction h generalizing read with
  | nil => exact ⟨read, rfl⟩
  | @plain c body hquote hslash h ih =>
      obtain ⟨kept, hkept⟩ := ih (c :: read)
      refine ⟨kept, ?_⟩
      rw [List.cons_append, arguments?.go, if_neg hquote, hkept]
      · exact fun h => absurd h hslash
      · exact fun _ _ h => absurd h hslash
  | @escaped c body h ih =>
      rw [List.cons_append, List.cons_append, arguments?.go]
      split
      · exact ih _
      · exact ih _

/-- A character without a meaning of its own goes into an argument or ends one. -/
theorem go_plain {c : CodePoint} (hslash : c ≠ '\\') (hsingle : c ≠ '\'') (hdouble : c ≠ '"')
    {state : ArgumentState} (hstate : state = .outside ∨ state = .inside) (read s : Text) :
    arguments?.go state read (c :: s) = arguments?.go .inside (c :: read) s ∨
      arguments?.go state read (c :: s) = arguments?.go .outside [] s ∨
        arguments?.go state read (c :: s) =
          (arguments?.go .outside [] s).map (read.reverse :: ·) := by
  have hlast : c = '\\' → s = [] → False := fun h => absurd h hslash
  have hnext : ∀ d rest, c = '\\' → s = d :: rest → False := fun _ _ h => absurd h hslash
  by_cases hseparates : separates c
  · rcases hstate with rfl | rfl
    · rw [arguments?.go, if_pos hseparates]
      · exact .inr (.inl rfl)
      all_goals first | assumption | nofun
    · rw [arguments?.go, if_pos hseparates]
      · exact .inr (.inr rfl)
      all_goals assumption
  · rcases hstate with rfl | rfl
    all_goals
      rw [arguments?.go, if_neg hseparates, if_neg hsingle, if_neg hdouble]
      · exact .inl rfl
      all_goals first | assumption | nofun

/-- A command line is read from any state without an open quote. -/
theorem IsCommandLine.exists_go {s : Text} (h : IsCommandLine s) {state : ArgumentState}
    (hstate : state = .outside ∨ state = .inside) (read : Text) :
    ∃ words, arguments?.go state read s = .ok words := by
  -- Between two pieces the reader is outside or inside a word, never within quotes; that is what
  -- the induction keeps.
  induction h generalizing state read with
  | nil =>
      rcases hstate with rfl | rfl
      · exact ⟨_, rfl⟩
      · exact ⟨_, rfl⟩
  | @plain c s hslash hsingle hdouble h ih =>
      rcases go_plain hslash hsingle hdouble hstate read s with hgo | hgo | hgo
      · rw [hgo]
        exact ih (.inr rfl) _
      · rw [hgo]
        exact ih (.inl rfl) _
      · obtain ⟨others, hothers⟩ := ih (.inl rfl) []
        rw [hgo, hothers]
        exact ⟨_, rfl⟩
  | @escaped c s h ih =>
      have hgo : arguments?.go state read (.char '\\' :: c :: s) =
          arguments?.go .inside (c :: read) s := by
        rcases hstate with rfl | rfl <;> rw [arguments?.go] <;> nofun
      rw [hgo]
      exact ih (.inr rfl) _
  | @single body s hbody h ih =>
      have hgo : arguments?.go state read (.char '\'' :: (body ++ .char '\'' :: s)) =
          arguments?.go .singleQuoted read (body ++ .char '\'' :: s) := by
        rcases hstate with rfl | rfl <;> rfl
      rw [hgo, go_singleQuoted hbody]
      exact ih (.inr rfl) _
  | @double body s hbody h ih =>
      have hgo : arguments?.go state read (.char '"' :: (body ++ .char '"' :: s)) =
          arguments?.go .doubleQuoted read (body ++ .char '"' :: s) := by
        rcases hstate with rfl | rfl <;> rfl
      obtain ⟨kept, hkept⟩ := go_doubleQuoted hbody read s
      rw [hgo, hkept]
      exact ih (.inr rfl) _

/-- Exactly the command lines have arguments. -/
theorem exists_arguments? {s : Text} :
    (∃ words, arguments? s = .ok words) ↔ IsCommandLine s :=
  ⟨fun ⟨_, hwords⟩ => isCommandLine_of_go hwords, fun h => h.exists_go (.inl rfl) []⟩

end VerilogLayout.Text

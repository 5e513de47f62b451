import VerilogLayout.Proofs.Source.Trim
import VerilogLayout.Proofs.Source.Watch

/-!
# Ranges in their normal form

The bounds of a range are its parts around the only colon outside of brackets. Blanks around a bound
are no brackets and no colons, so bounds are found again in fields of any widths, `split?_format`,
and a text that has been normalised has the same bounds as before: `normalise_normalise` is the
fixed point, and `mayBecome_normalise` says that nothing that counts is changed.
-/

namespace VerilogLayout

namespace Bracket

variable {separator : CodePoint}

/-- The depth behind a text. -/
def depthBehind (depth : Int) (s : Text) : Int :=
  s.foldl depthAfter depth

/-- No separator stands outside of brackets. -/
def Whole (separator : CodePoint) : Int → Text → Prop
  | _, [] => True
  | depth, c :: s => ¬ (c = separator ∧ depth = 0) ∧ Whole separator (depthAfter depth c) s

/-- A text is whole if its parts are, each at the depth where it starts. -/
theorem whole_append (depth : Int) (s t : Text) :
    Whole separator depth (s ++ t) ↔
      Whole separator depth s ∧ Whole separator (depthBehind depth s) t := by
  induction s generalizing depth with
  | nil => simp [Whole, depthBehind]
  | cons c s ih =>
      rw [List.cons_append, Whole, Whole, ih, and_assoc]
      rfl

/-- A whole text is one part. -/
theorem topLevelParts_of_whole {depth : Int} {s : Text} (h : Whole separator depth s) :
    topLevelParts separator depth s = [s] := by
  induction s generalizing depth with
  | nil => rfl
  | cons c s ih => rw [topLevelParts, if_neg h.1, ih h.2]

/-- A separator outside of all brackets cuts off what is whole in front. -/
theorem topLevelParts_append {depth : Int} {s : Text} (h : Whole separator depth s)
    (hdepth : depthBehind depth s = 0) (t : Text) :
    topLevelParts separator depth (s ++ separator :: t) = s :: topLevelParts separator 0 t := by
  induction s generalizing depth with
  | nil =>
      obtain rfl : depth = 0 := hdepth
      rw [List.nil_append, topLevelParts, if_pos ⟨rfl, rfl⟩]
  | cons c s ih =>
      have hrest : depthBehind (depthAfter depth c) s = 0 := hdepth
      rw [List.cons_append, topLevelParts, if_neg h.1, ih h.2 hrest]

/-- The first part ends at a separator outside of brackets, or it is the whole text. -/
theorem of_topLevelParts {depth : Int} {s part : Text} {parts : List Text}
    (h : topLevelParts separator depth s = part :: parts) :
    Whole separator depth part ∧
      (parts = [] ∧ s = part ∨ depthBehind depth part = 0 ∧
        ∃ rest, s = part ++ separator :: rest ∧ parts = topLevelParts separator 0 rest) := by
  induction s generalizing depth part parts with
  | nil =>
      obtain ⟨rfl, rfl⟩ := List.cons_eq_cons.1 h
      exact ⟨trivial, .inl ⟨rfl, rfl⟩⟩
  | cons c s ih =>
      unfold topLevelParts at h
      split at h
      · next hseparator =>
          obtain ⟨rfl, hdepth⟩ := hseparator
          obtain ⟨rfl, rfl⟩ := List.cons_eq_cons.1 h
          exact ⟨trivial, .inr ⟨hdepth, s, rfl, rfl⟩⟩
      · next hseparator =>
          split at h
          · next hnil => exact absurd hnil (topLevelParts_ne_nil separator _ s)
          · next first others hfirst =>
              obtain ⟨rfl, rfl⟩ := List.cons_eq_cons.1 h
              obtain ⟨hwhole, hrest⟩ := ih hfirst
              refine ⟨⟨hseparator, hwhole⟩, ?_⟩
              rcases hrest with ⟨rfl, rfl⟩ | ⟨hdepth, rest, rfl, rfl⟩
              · exact .inl ⟨rfl, rfl⟩
              · exact .inr ⟨hdepth, rest, rfl, rfl⟩

/-- A blank is no bracket and separates nothing. -/
theorem of_isBlank {c : CodePoint} (h : Text.isBlank c) :
    c ≠ ':' ∧ isOpening c = false ∧ isClosing c = false := by
  have hmild := Watch.isMild_of_isBlank h
  simp only [Watch.IsMild, Watch.counted, List.mem_cons, List.not_mem_nil, or_false,
    not_or] at hmild
  refine ⟨?_, by simp [isOpening, hmild], by simp [isClosing, hmild]⟩
  rintro rfl
  cases h

/-- Blanks are no separators and change no depth. -/
theorem whole_of_allBlank {s : Text} (h : Text.AllBlank s) (depth : Int) :
    Whole ':' depth s ∧ depthBehind depth s = depth := by
  induction s with
  | nil => exact ⟨trivial, rfl⟩
  | cons c s ih =>
      obtain ⟨hc, hs⟩ := List.forall_mem_cons.1 h
      obtain ⟨hne, hopening, hclosing⟩ := of_isBlank hc
      have hdepth : depthAfter depth c = depth := by simp [depthAfter, hopening, hclosing]
      refine ⟨⟨fun hboth => hne hboth.1, ?_⟩, ?_⟩
      · rw [hdepth]
        exact (ih hs).1
      · show depthBehind (depthAfter depth c) s = depth
        rw [hdepth, (ih hs).2]

/-- There are two parts exactly if one separator stands outside of all brackets. -/
theorem topLevelParts_eq_pair {s upper lower : Text} :
    topLevelParts separator 0 s = [upper, lower] ↔
      s = upper ++ separator :: lower ∧ Whole separator 0 upper ∧ depthBehind 0 upper = 0 ∧
        Whole separator 0 lower := by
  constructor
  · intro h
    obtain ⟨hupper, hrest⟩ := of_topLevelParts h
    rcases hrest with ⟨hnil, -⟩ | ⟨hdepth, rest, rfl, hparts⟩
    · cases hnil
    · obtain ⟨hlower, hend⟩ := of_topLevelParts hparts.symm
      rcases hend with ⟨-, rfl⟩ | ⟨-, _, _, hnil⟩
      · exact ⟨rfl, hupper, hdepth, hlower⟩
      · exact absurd hnil.symm (topLevelParts_ne_nil separator 0 _)
  · rintro ⟨rfl, hupper, hdepth, hlower⟩
    rw [topLevelParts_append hupper hdepth, topLevelParts_of_whole hlower]

/-- Blanks around a text change neither its depth nor its separators. -/
theorem whole_surrounded {front s back : Text} (hfront : Text.AllBlank front)
    (hback : Text.AllBlank back) (depth : Int) :
    (Whole ':' depth (front ++ s ++ back) ↔ Whole ':' depth s) ∧
      depthBehind depth (front ++ s ++ back) = depthBehind depth s := by
  have hdepth : depthBehind depth (front ++ s) = depthBehind depth s := by
    rw [depthBehind, List.foldl_append]
    exact congrArg (depthBehind · s) (whole_of_allBlank hfront depth).2
  refine ⟨?_, ?_⟩
  · rw [whole_append, whole_append, (whole_of_allBlank hfront depth).2]
    simp [whole_of_allBlank hfront, whole_of_allBlank hback]
  · rw [depthBehind, List.foldl_append]
    exact (whole_of_allBlank hback _).2.trans hdepth

end Bracket

namespace Range

/-- A range as a scanner finds it. -/
def IsRange (s : Text) : Prop :=
  ∃ body, s = .char '[' :: (body ++ [.char ']']) ∧ ∀ c ∈ body, Scan.isSquare c = false

/-- The bounds that a range is split into. -/
structure AreBounds (upper lower : Text) : Prop where
  upper_tight : upper.IsTight
  lower_tight : lower.IsTight
  upper_ne_nil : upper ≠ []
  lower_ne_nil : lower ≠ []
  upper_whole : Bracket.Whole ':' 0 upper
  lower_whole : Bracket.Whole ':' 0 lower
  depth_eq : Bracket.depthBehind 0 upper = 0
  no_sign : Text.endsWith upper "+" = false ∧ Text.endsWith upper "-" = false

theorem isTight_square (body : Text) : Text.IsTight (.char '[' :: (body ++ [.char ']'])) := by
  refine ⟨Text.stops_cons.2 rfl, ?_⟩
  rw [← List.cons_append, List.reverse_append, List.reverse_singleton, List.singleton_append]
  exact Text.stops_cons.2 rfl

/-- A text in brackets is split if it has two bounds that say something. -/
theorem split?_square (body : Text) :
    split? (.char '[' :: (body ++ [.char ']'])) =
      match Bracket.topLevelParts ':' 0 body with
      | [upper, lower] =>
          if (Text.trim upper).isEmpty || (Text.trim lower).isEmpty ||
              Text.endsWith (Text.trim upper) "+" || Text.endsWith (Text.trim upper) "-" then
            none
          else
            some (Text.trim upper, Text.trim lower)
      | _ => none := by
  have hinside : inside? (.char '[' :: (body ++ [.char ']'])) = some body := by
    rw [inside?, List.getLast?_concat, if_pos rfl, List.dropLast_concat]
  rw [split?, Text.trim_eq_self (isTight_square body), hinside]
  rfl

/-- A range is split into its bounds, whatever blanks stand around them. -/
theorem split?_eq_some {body upper lower : Text} :
    split? (.char '[' :: (body ++ [.char ']'])) = some (upper, lower) ↔
      AreBounds upper lower ∧ ∃ a b c d : Text, (∀ e ∈ a ++ b ++ c ++ d, Text.isBlank e) ∧
        body = a ++ upper ++ b ++ .char ':' :: (c ++ lower ++ d) := by
  rw [split?_square]
  constructor
  · intro h
    split at h
    · next first second hparts =>
        split at h
        · cases h
        · next hbounds =>
            obtain ⟨rfl, rfl⟩ := Prod.mk.inj (Option.some.inj h)
            obtain ⟨rfl, hfirst, hdepth, hsecond⟩ := Bracket.topLevelParts_eq_pair.1 hparts
            obtain ⟨a, b, hfirst', ha, hb, hupper⟩ := Text.exists_trim first
            obtain ⟨c, d, hsecond', hc, hd, hlower⟩ := Text.exists_trim second
            simp only [Bool.or_eq_true, not_or, Bool.not_eq_true, List.isEmpty_iff] at hbounds
            obtain ⟨⟨⟨hne, hne'⟩, hplus⟩, hminus⟩ := hbounds
            have hwhole := Bracket.whole_surrounded ha hb (s := Text.trim first) 0
            have hwhole' := Bracket.whole_surrounded hc hd (s := Text.trim second) 0
            rw [← hfirst'] at hwhole
            rw [← hsecond'] at hwhole'
            refine ⟨⟨hupper, hlower, hne, hne', hwhole.1.1 hfirst, hwhole'.1.1 hsecond,
              hwhole.2.symm.trans hdepth, hplus, hminus⟩, a, b, c, d, ?_, ?_⟩
            · simp only [List.mem_append]
              rintro e (((he | he) | he) | he)
              · exact ha e he
              · exact hb e he
              · exact hc e he
              · exact hd e he
            · rw [← hfirst', ← hsecond']
    · cases h
  -- The blanks around a bound change neither the depth nor the cut, and are trimmed away.
  · rintro ⟨h, a, b, c, d, hblank, rfl⟩
    simp only [List.forall_mem_append] at hblank
    obtain ⟨⟨⟨ha, hb⟩, hc⟩, hd⟩ := hblank
    have hwhole := Bracket.whole_surrounded ha hb (s := upper) 0
    have hwhole' := Bracket.whole_surrounded hc hd (s := lower) 0
    have hparts := Bracket.topLevelParts_eq_pair.2
      ⟨rfl, hwhole.1.2 h.upper_whole, hwhole.2.trans h.depth_eq, hwhole'.1.2 h.lower_whole⟩
    rw [hparts]
    dsimp only
    rw [Text.trim_append ha h.upper_tight hb, Text.trim_append hc h.lower_tight hd, if_neg]
    rw [h.no_sign.1, h.no_sign.2]
    simp [h.upper_ne_nil, h.lower_ne_nil]

/-- What stands inside of brackets has them around it. -/
theorem inside?_eq_some {s body : Text} (h : inside? s = some body) :
    s = .char '[' :: (body ++ [.char ']']) := by
  unfold inside? at h
  split at h
  · next rest =>
      split at h
      · next hlast =>
          obtain ⟨front, rfl⟩ := List.getLast?_eq_some_iff.1 hlast
          rw [List.dropLast_concat] at h
          rw [Option.some.inj h]
      · cases h
  · cases h

/-- Blanks around a range do not matter. -/
theorem split?_trim (s : Text) : split? (Text.trim s) = split? s := by
  rw [split?, split?, Text.trim_trim]

/-- Any text with bounds is its bounds in square brackets, blanks around them. -/
theorem exists_of_split? {s upper lower : Text} (h : split? s = some (upper, lower)) :
    AreBounds upper lower ∧ ∃ a b c d : Text, (∀ e ∈ a ++ b ++ c ++ d, Text.isBlank e) ∧
      Text.trim s = .char '[' ::
        (a ++ upper ++ b ++ .char ':' :: (c ++ lower ++ d) ++ [.char ']']) := by
  obtain ⟨body, htrim⟩ : ∃ body, Text.trim s = .char '[' :: (body ++ [.char ']']) := by
    cases hinside : inside? (Text.trim s) with
    | none => rw [split?, hinside] at h; cases h
    | some body => exact ⟨body, inside?_eq_some hinside⟩
  rw [← split?_trim, htrim] at h
  obtain ⟨hbounds, a, b, c, d, hblank, rfl⟩ := split?_eq_some.1 h
  exact ⟨hbounds, a, b, c, d, hblank, htrim⟩

/-! ## The normal form -/

/-- A formatted range has spaces in front of the upper bound and behind the lower one only. -/
theorem format_eq {upper lower : Text} (h : AreBounds upper lower) (m n : Nat) :
    format upper lower m n =
      .char '[' :: (Text.spaces (m - upper.length) ++ upper ++ [] ++
        .char ':' :: ([] ++ lower ++ Text.spaces (n - lower.length)) ++ [.char ']']) := by
  simp [format, Text.padLeft, Text.padRight, Text.trim_eq_self h.upper_tight,
    Text.trim_eq_self h.lower_tight]

/-- Padding is blank. -/
theorem forall_mem_spaces (front back : Nat) :
    ∀ e ∈ Text.spaces front ++ [] ++ [] ++ Text.spaces back, Text.isBlank e := by
  rw [List.append_nil, List.append_nil]
  exact List.forall_mem_append.2 ⟨Text.allBlank_spaces front, Text.allBlank_spaces back⟩

/-- Bounds are found again in fields of any widths. -/
theorem split?_format {upper lower : Text} (h : AreBounds upper lower) (m n : Nat) :
    split? (format upper lower m n) = some (upper, lower) := by
  rw [format_eq h, split?_eq_some]
  exact ⟨h, _, [], [], _, forall_mem_spaces _ _, rfl⟩

variable (columns : Columns)

/-- A text in its normal form has the bounds that it had. -/
theorem split?_normalise (s : Text) : split? (normalise columns s) = split? s := by
  unfold normalise
  cases hsplit : split? s with
  | none => exact (split?_trim s).trans hsplit
  | some bounds => exact split?_format (exists_of_split? hsplit).1 _ _

/-- The normal form is a fixed point. -/
theorem normalise_normalise (s : Text) :
    normalise columns (normalise columns s) = normalise columns s := by
  have hagain := split?_normalise columns s
  unfold normalise at hagain ⊢
  rw [hagain]
  cases split? s with
  | none => exact Text.trim_trim s
  | some bounds => rfl

/-- A range is left alone, or it has bounds and is written with spaces around them. -/
theorem normalise_eq {s : Text} (h : IsRange s) :
    split? s = none ∧ normalise columns s = s ∨
      ∃ upper lower front back, split? s = some (upper, lower) ∧
        normalise columns s =
          .char '[' ::
            (Text.spaces front ++ upper ++ [] ++ .char ':' :: ([] ++ lower ++ Text.spaces back) ++
            [.char ']']) := by
  obtain ⟨body, rfl, -⟩ := h
  unfold normalise
  cases hsplit : split? (.char '[' :: (body ++ [.char ']'])) with
  | none => exact .inl ⟨rfl, Text.trim_eq_self (isTight_square body)⟩
  | some bounds => exact .inr ⟨_, _, _, _, rfl, format_eq (split?_eq_some.1 hsplit).1 _ _⟩

/-- The normal form of a range is a range. -/
theorem isRange_normalise {s : Text} (h : IsRange s) : IsRange (normalise columns s) := by
  rcases normalise_eq columns h with ⟨-, heq⟩ | ⟨upper, lower, front, back, hsplit, heq⟩
  · rwa [heq]
  · obtain ⟨body, rfl, hbody⟩ := h
    obtain ⟨-, a, b, c, d, -, rfl⟩ := split?_eq_some.1 hsplit
    have hspaces : ∀ n, ∀ c ∈ Text.spaces n, Scan.isSquare c = false := by
      intro n c hc
      rw [List.eq_of_mem_replicate hc]
      rfl
    refine ⟨_, heq, ?_⟩
    simp only [List.forall_mem_append, List.forall_mem_cons] at hbody ⊢
    exact ⟨⟨⟨hspaces front, hbody.1.1.2⟩, List.forall_mem_nil _⟩, hbody.2.1,
      ⟨List.forall_mem_nil _, hbody.2.2.1.2⟩, hspaces back⟩

theorem endsPlain_of_isRange {s : Text} (h : IsRange s) : Watch.EndsPlain s := by
  obtain ⟨body, rfl, -⟩ := h
  rw [← List.cons_append]
  exact Watch.endsPlain_append rfl

/-- Only gaps are changed in a range. -/
theorem mayBecome_normalise {s : Text} (h : IsRange s) :
    Watch.MayBecome s (normalise columns s) := by
  rcases normalise_eq columns h with ⟨-, heq⟩ | ⟨upper, lower, front, back, hsplit, heq⟩
  · rw [heq]
    exact .refl s
  · obtain ⟨body, rfl, -⟩ := h
    obtain ⟨-, a, b, c, d, hblank, rfl⟩ := split?_eq_some.1 hsplit
    simp only [List.forall_mem_append] at hblank
    obtain ⟨⟨⟨ha, hb⟩, hc⟩, hd⟩ := hblank
    have hmild : ∀ {s : Text}, Text.AllBlank s → ∀ e ∈ s, Watch.IsMild e :=
      fun h e he => Watch.isMild_of_isBlank (h e he)
    have hneat : ∀ n, ∀ e ∈ Text.spaces n, Watch.IsNeat e := fun _ _ => Watch.isNeat_of_mem_spaces
    have hnil : ∀ e ∈ ([] : Text), Watch.IsNeat e := List.forall_mem_nil _
    -- A gap behind a bound stands before a colon or a bracket, which pair with no character.
    have hupper := Watch.MayBecome.gap (hmild hb) hnil (c := ':') (by decide) upper []
    have hlower := Watch.MayBecome.gap (hmild hd) (hneat back) (c := ']') (by decide) lower []
    have hplain : Watch.EndsPlain (upper ++ (b ++ [.char ':'])) := by
      rw [← List.append_assoc]
      exact Watch.endsPlain_append rfl
    have hfront := Watch.MayBecome.of_isMild (hmild ha) (hneat front)
    have hmiddle := Watch.MayBecome.of_isMild (hmild hc) hnil
    have hbody := hfront.append (Watch.endsPlain_of_isMild (hmild ha))
      (hupper.append hplain (hmiddle.append (Watch.endsPlain_of_isMild (hmild hc)) hlower))
    have hall :=
      (Watch.MayBecome.refl [.char '[']).append (Watch.endsPlain_append (s := []) rfl) hbody
    rw [heq]
    simpa using hall

end Range
end VerilogLayout

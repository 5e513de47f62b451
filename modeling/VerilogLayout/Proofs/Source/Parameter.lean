import VerilogLayout.Proofs.Source.Signal

/-!
# Parameters that are laid out as they stand

A word in front of the equals sign is a modifier if a name follows it, and the name otherwise; so
the modifiers are read back as far as they go, `modified?_modifiers`. A parameter with a blank value
loses its equals sign and is no declaration any more, which makes its line a fixed point as well.
-/

namespace VerilogLayout

open Text (Stops)

namespace LineForm

open Scan Line

/-- A word or a range in front of the name of a parameter. -/
def IsModifier (s : Text) : Prop :=
  s ∈ parameterTypes ∨ Range.IsRange s

theorem isKeyword_of_mem_parameterTypes : ∀ word ∈ parameterTypes, IsKeyword word := by
  decide

theorem isName_of_mem_parameterTypes : ∀ word ∈ parameterTypes, IsName word := by
  decide

theorem isKeyword_of_mem_parameterKeywords : ∀ word ∈ parameterKeywords, IsKeyword word := by
  decide

/-- A modifier starts with a character of a word or with a bracket. -/
theorem IsModifier.exists_head {s : Text} (h : IsModifier s) :
    ∃ c rest, s = c :: rest ∧ (Text.isWord c ∨ c = '[') := by
  rcases h with h | ⟨body, rfl, -⟩
  · obtain ⟨hne, hword⟩ := isKeyword_of_mem_parameterTypes s h
    obtain ⟨c, rest, rfl⟩ := List.exists_cons_of_ne_nil hne
    exact ⟨c, rest, rfl, .inl (hword c List.mem_cons_self)⟩
  · exact ⟨'[', _, rfl, .inr rfl⟩

theorem IsModifier.ne_nil {s : Text} (h : IsModifier s) : s ≠ [] := by
  obtain ⟨c, rest, rfl, -⟩ := h.exists_head
  exact List.cons_ne_nil c rest

/-- A modifier has no blank in front. -/
theorem IsModifier.stops {s : Text} (h : IsModifier s) : Stops Text.isBlank s := by
  obtain ⟨c, rest, rfl, hc⟩ := h.exists_head
  refine Text.stops_cons.2 ?_
  rcases hc with hc | rfl
  · exact isBlank_eq_false (isNamePart_of_isWord hc)
  · rfl

/-! ## Values -/

/-- The value of a parameter and what ends it. Without a terminator a comma at the end of the value
would be taken for one. -/
structure IsParameterValue (value terminator : Text) : Prop where
  ne_nil : value ≠ []
  isValue : IsValue value
  isTerminator : IsTerminator terminator
  no_comma : terminator = [] → value.tail.getLast? ≠ some (.char ',')

/-- A value with a terminator behind it, which has more than that terminator in front. -/
theorem parameterValue?_ended {s rest : Text} {c t : CodePoint} (ht : t = ',' ∨ t = ';')
    (htrim : Text.trimLeft s = c :: (rest ++ [t])) (h : .char ';' ∉ Text.trimRight (c :: rest)) :
    parameterValue? s = some (Text.trimRight (c :: rest), [t]) := by
  unfold parameterValue?
  rw [htrim]
  split
  · next heq => cases heq
  · next heq => simp at heq
  · next heq =>
      obtain ⟨rfl, rfl⟩ := List.cons.inj heq
      have hends : (rest ++ [t]).getLast? = some (.char ',') ∨
          (rest ++ [t]).getLast? = some (.char ';') := by
        rw [List.getLast?_concat]
        exact ht.imp (congrArg some) (congrArg some)
      dsimp only
      rw [if_pos hends, if_pos hends, List.dropLast_concat, if_neg h, List.getLast?_concat]
      rfl

/-- A value without a terminator behind it. -/
theorem parameterValue?_open {s rest : Text} {c : CodePoint} (htrim : Text.trimLeft s = c :: rest)
    (hlast : rest.getLast? ≠ some (.char ',')) (h : .char ';' ∉ c :: rest) :
    parameterValue? s = some (c :: rest, []) := by
  have hends : ¬ (rest.getLast? = some (.char ',') ∨ rest.getLast? = some (.char ';')) := by
    refine not_or.2 ⟨hlast, fun heq => h ?_⟩
    exact List.mem_cons_of_mem _ (List.mem_of_getLast? heq)
  unfold parameterValue?
  rw [htrim]
  split
  · next heq => cases heq
  · next heq => exact absurd (heq ▸ List.mem_cons_self) h
  · next heq =>
      obtain ⟨rfl, rfl⟩ := List.cons.inj heq
      dsimp only
      rw [if_neg hends, if_neg hends, if_neg h]

/-- A text and the value and terminator that are read from it. There may be nothing but a semicolon,
a terminator behind a value, or a value with nothing behind it. -/
inductive ReadsValue (s : Text) : Text → Text → Prop
  | blank (htrim : Text.trimLeft s = [.char ';']) : ReadsValue s [] [.char ';']
  | ended {rest : Text} {c t : CodePoint} (ht : t = ',' ∨ t = ';')
      (htrim : Text.trimLeft s = c :: (rest ++ [t])) (h : .char ';' ∉ Text.trimRight (c :: rest)) :
      ReadsValue s (Text.trimRight (c :: rest)) [t]
  | opened {rest : Text} {c : CodePoint} (htrim : Text.trimLeft s = c :: rest)
      (hlast : rest.getLast? ≠ some (.char ',')) (h : .char ';' ∉ c :: rest) :
      ReadsValue s (c :: rest) []

/-- Each way of reading a value is one of the three. -/
theorem readsValue_of_parameterValue? {s value terminator : Text}
    (h : parameterValue? s = some (value, terminator)) : ReadsValue s value terminator := by
  unfold parameterValue? at h
  split at h
  · cases h
  · next htrim =>
      split at h
      · obtain ⟨rfl, rfl⟩ := Prod.mk.inj (Option.some.inj h)
        exact .blank htrim
      · cases h
  · next c rest _ htrim =>
      by_cases hends : rest.getLast? = some (.char ',') ∨ rest.getLast? = some (.char ';')
      · dsimp only at h
        rw [if_pos hends, if_pos hends] at h
        obtain ⟨t, ht, hlast⟩ : ∃ t : CodePoint, (t = ',' ∨ t = ';') ∧
            rest.getLast? = some t := by
          rcases hends with hends | hends
          · exact ⟨.char ',', .inl rfl, hends⟩
          · exact ⟨.char ';', .inr rfl, hends⟩
        obtain ⟨rest, rfl⟩ := List.getLast?_eq_some_iff.1 hlast
        rw [List.dropLast_concat, List.getLast?_concat] at h
        split at h
        · cases h
        · next hnot =>
            obtain ⟨rfl, rfl⟩ := Prod.mk.inj (Option.some.inj h)
            exact .ended ht htrim hnot
      · dsimp only at h
        rw [if_neg hends, if_neg hends] at h
        split at h
        · cases h
        · next hnot =>
            obtain ⟨rfl, rfl⟩ := Prod.mk.inj (Option.some.inj h)
            exact .opened htrim (fun hcomma => hends (.inl hcomma)) hnot

section
variable {value terminator : Text}

/-- A value is read back with the terminator that was written behind it. -/
theorem parameterValue?_written (h : IsParameterValue value terminator) (n : Nat) :
    parameterValue? (.char ' ' :: (value ++ gapped n terminator)) = some (value, terminator) := by
  obtain ⟨hne, ⟨htight, hnot⟩, hterminator, hcomma⟩ := h
  obtain ⟨c, v, rfl⟩ := List.exists_cons_of_ne_nil hne
  have htrim : Text.trimLeft (.char ' ' :: (c :: v ++ gapped n terminator)) =
      c :: (v ++ gapped n terminator) :=
    Text.trimLeft_append (Text.allBlank_spaces 1)
      (Text.stops_cons.2 (Text.stops_cons.1 htight.head))
  have hone : ∀ t : CodePoint, t = ',' ∨ t = ';' → terminator = [t] →
      parameterValue? (.char ' ' :: (c :: v ++ gapped n terminator)) =
        some (c :: v, terminator) := by
    rintro t ht rfl
    have hcut : Text.trimRight (c :: (v ++ Text.spaces n)) = c :: v :=
      Text.trimRight_append (Text.allBlank_spaces n) htight.last
    rw [gapped_of_ne_nil n (List.cons_ne_nil t [])] at htrim ⊢
    rw [← List.append_assoc v] at htrim
    have hread := parameterValue?_ended ht htrim (hcut ▸ hnot)
    rwa [hcut] at hread
  rcases hterminator with rfl | rfl | rfl
  · rw [gapped_nil, List.append_nil] at htrim ⊢
    rw [List.append_nil] at htrim
    exact parameterValue?_open htrim (hcomma rfl) hnot
  · exact hone ',' (.inl rfl) rfl
  · exact hone ';' (.inr rfl) rfl

/-- A value loses the blanks between it and its terminator, and only that gap is changed. -/
theorem isParameterValue_trimRight {rest : Text} {c t : CodePoint} (hc : Text.isBlank c = false)
    (ht : t = ',' ∨ t = ';') (hnot : .char ';' ∉ Text.trimRight (c :: rest)) :
    IsParameterValue (Text.trimRight (c :: rest)) [t] ∧
      ∀ n, Watch.MayBecome (c :: (rest ++ [t])) (Text.trimRight (c :: rest) ++ gapped n [t]) := by
  obtain ⟨back, hback, hblank, htight⟩ := Text.exists_trimRight (c :: rest)
  have hne : Text.trimRight (c :: rest) ≠ [] := by
    intro hnil
    rw [hnil, List.nil_append] at hback
    rw [hblank c (hback ▸ List.mem_cons_self)] at hc
    cases hc
  have hhead : Stops Text.isBlank (Text.trimRight (c :: rest)) := by
    refine Text.Stops.left (t := back) ?_
    rw [← hback]
    exact Text.stops_cons.2 hc
  have hterminator : IsTerminator [t] := by
    rcases ht with rfl | rfl
    · exact .inr (.inl rfl)
    · exact .inr (.inr rfl)
  refine ⟨⟨hne, ⟨⟨hhead, htight⟩, hnot⟩, hterminator,
    fun hnil => absurd hnil (List.cons_ne_nil t [])⟩, fun n => ?_⟩
  have hgap : Watch.MayBecome (Text.trimRight (c :: rest) ++ (back ++ [t]))
      (Text.trimRight (c :: rest) ++ (Text.spaces n ++ [t])) :=
    .gap (fun c hc => Watch.isMild_of_isBlank (hblank c hc))
      (fun _ => Watch.isNeat_of_mem_spaces) (by rcases ht with rfl | rfl <;> decide) _ []
  have htext : c :: (rest ++ [t]) = Text.trimRight (c :: rest) ++ (back ++ [t]) := by
    rw [← List.append_assoc, ← hback, List.cons_append]
  rw [htext]
  exact hgap

/-- A value is trimmed, and only the gaps around it are changed, unless it is blank. -/
theorem of_parameterValue? {s : Text} (hlast : Stops Text.isBlank s.reverse)
    (h : parameterValue? s = some (value, terminator)) :
    value = [] ∧ terminator = [.char ';'] ∧ Passes s [.char ';'] ∨
      IsParameterValue value terminator ∧
        ∀ n, Watch.MayBecome s (.char ' ' :: (value ++ gapped n terminator)) := by
  obtain ⟨hsplit, hblank, hstops⟩ := Text.exists_run Text.isBlank s
  have hpasses := Passes.trimLeft s
  have hfront : Watch.MayBecome (s.takeWhile Text.isBlank) [.char ' '] :=
    .of_isMild (fun c hc => Watch.isMild_of_isBlank (hblank c hc)) (by decide)
  have hplain : Watch.EndsPlain (s.takeWhile Text.isBlank) :=
    Watch.endsPlain_of_isMild fun c hc => Watch.isMild_of_isBlank (hblank c hc)
  cases readsValue_of_parameterValue? h with
  | blank htrim => exact .inl ⟨rfl, rfl, htrim ▸ hpasses⟩
  | @ended rest c t ht htrim hnot =>
      have hrest : s.dropWhile Text.isBlank = c :: (rest ++ [t]) := htrim
      rw [hrest] at hsplit hstops
      obtain ⟨hvalue, hgap⟩ := isParameterValue_trimRight (Text.stops_cons.1 hstops) ht hnot
      refine .inr ⟨hvalue, fun n => ?_⟩
      rw [hsplit]
      exact hfront.append hplain (hgap n)
  | @opened rest c htrim hcomma hnot =>
      have hrest : s.dropWhile Text.isBlank = c :: rest := htrim
      rw [hrest] at hsplit hstops
      have hlast' : Stops Text.isBlank (c :: rest).reverse := by
        rw [hsplit, List.reverse_append] at hlast
        exact hlast.left
      refine .inr ⟨⟨List.cons_ne_nil c rest, ⟨⟨hstops, hlast'⟩, hnot⟩, .inl rfl,
        fun _ => hcomma⟩, fun n => ?_⟩
      rw [hsplit, gapped_nil, List.append_nil]
      exact hfront.append hplain (.refl _)

end

/-! ## Names -/

section
variable {name value terminator rest : Text}

/-- A name without a value behind it, if the rest goes on with no equals sign. -/
theorem namedValue?_eq_none {s : Text} (h : ∀ name rest, name? s = some (name, rest) →
    ∀ t, Text.trimLeft rest ≠ .char '=' :: t) : namedValue? s = none := by
  unfold namedValue?
  cases hname : name? s with
  | none => rfl
  | some found =>
      simp only [Option.bind_eq_bind, Option.bind_some]
      split
      · next heq => exact absurd heq (h found.1 found.2 hname _)
      · rfl

/-- A name is read with the value behind its equals sign. -/
theorem namedValue?_append (hname : IsName name) (hrest : Stops isNamePart rest) {t : Text}
    (h : Text.trimLeft rest = .char '=' :: t) :
    namedValue? (name ++ rest) = (parameterValue? t).map (name, ·) := by
  unfold namedValue?
  simp only [name?_append hname hrest, Option.bind_eq_bind, Option.bind_some, h]

/-- What is read in front of a value is a name, and nothing counts up to the value. -/
theorem of_namedValue? {s : Text} (h : namedValue? s = some (name, value, terminator)) :
    IsName name ∧ ∃ t, Passes s t ∧ parameterValue? t = some (value, terminator) := by
  obtain ⟨⟨found, rest⟩, hname, h⟩ := Option.bind_eq_some_iff.1 h
  dsimp only at h
  split at h
  · next t heq =>
      obtain ⟨⟨value', terminator'⟩, hvalue, heq'⟩ := Option.map_eq_some_iff.1 h
      obtain ⟨hfound, heq'⟩ := Prod.mk.inj heq'
      obtain ⟨rfl, rfl⟩ := Prod.mk.inj heq'
      have hequals : ∀ c ∈ [.char '='], Watch.IsMild c := by decide
      have htrim := Passes.trimLeft rest
      rw [heq] at htrim
      exact ⟨hfound ▸ isName_of_name? hname, t, ((passes_of_name? hname).trans htrim).trans
        (.mild_append hequals t), hvalue⟩
  · cases h

end

/-! ## Modifiers -/

/-- The modifiers of a parameter, each behind a space. -/
def spacedModifiers (modifiers : List Text) : Text :=
  modifiers.flatMap fun modifier => .char ' ' :: modifier

/-- Each modifier has a space in front. -/
theorem spacedModifiers_cons (modifier : Text) (modifiers : List Text) :
    spacedModifiers (modifier :: modifiers) =
      .char ' ' :: (modifier ++ spacedModifiers modifiers) :=
  List.flatMap_cons

section
variable {modifiers : List Text}

/-- The modifiers are one field, joined by spaces. -/
theorem gapped_intercalate (h : ∀ modifier ∈ modifiers, modifier ≠ []) :
    gapped 1 (List.intercalate " " modifiers) = spacedModifiers modifiers := by
  induction modifiers with
  | nil => rfl
  | cons modifier modifiers ih =>
      obtain ⟨hfirst, hrest⟩ := List.forall_mem_cons.1 h
      obtain ⟨t, ht⟩ := exists_intercalate " " modifier modifiers
      have hne : List.intercalate " " (modifier :: modifiers) ≠ [] := by
        rw [ht]
        exact List.append_ne_nil_of_left_ne_nil hfirst t
      rw [gapped_of_ne_nil 1 hne, spacedModifiers_cons]
      refine congrArg (CodePoint.char ' ' :: ·) ?_
      cases modifiers with
      | nil => simp [spacedModifiers]
      | cons next others =>
          have hne' : List.intercalate " " (next :: others) ≠ [] := by
            obtain ⟨t, ht⟩ := exists_intercalate " " next others
            rw [ht]
            exact List.append_ne_nil_of_left_ne_nil (hrest next List.mem_cons_self) t
          rw [← ih hrest, gapped_of_ne_nil 1 hne', List.intercalate_cons_cons, List.append_assoc]
          rfl

/-- Written modifiers have at least a character each. -/
theorem length_le_spacedModifiers (modifiers : List Text) :
    modifiers.length ≤ (spacedModifiers modifiers).length := by
  induction modifiers with
  | nil => exact Nat.le_refl 0
  | cons modifier modifiers ih =>
      rw [spacedModifiers_cons, List.length_cons, List.length_cons, List.length_append]
      omega

/-- A modifier is read back if a gap follows. -/
theorem modifier?_append {modifier rest : Text} (h : IsModifier modifier)
    (hrest : Stops Text.isWord rest) :
    modifier? (modifier ++ rest) = some (modifier, Text.trimLeft rest) := by
  rw [modifier?]
  rcases h with h | h
  · rw [keyword?_append h (isKeyword_of_mem_parameterTypes modifier h).2 hrest]
    rfl
  · have hnone : keyword? parameterTypes (modifier ++ rest) = none := by
      obtain ⟨body, rfl, -⟩ := h
      exact keyword?_eq_none (show ([] : Text) ∉ parameterTypes by decide)
    rw [hnone, range?_append h]
    rfl

/-- No modifier starts a barren text. -/
theorem modifier?_of_barren {s : Text} (h : Barren s) : modifier? s = none := by
  rw [modifier?, keyword?_of_barren (by decide) h, range?_eq_none h.head_ne]
  rfl

/-- Nothing that is modified starts a barren text. -/
theorem modified?_of_barren {s : Text} (h : Barren s) (fuel : Nat) : modified? fuel s = none := by
  have hname : namedValue? s = none :=
    namedValue?_eq_none fun name rest hfound => by
      rw [name?_eq_none h] at hfound
      cases hfound
  cases fuel with
  | zero => rw [modified?, hname]; rfl
  | succ fuel => rw [modified?, modifier?_of_barren h, hname]; rfl

/-- What follows a name that looks like a modifier is not read as a parameter. -/
theorem modified?_name {name rest : Text} (hbefore : NamesBefore [name] rest)
    (hbarren : Barren (Text.trimLeft rest)) (fuel : Nat) :
    modified? fuel (name ++ rest) = (namedValue? (name ++ rest)).map ([], ·) := by
  have hname := hbefore.isName name List.mem_cons_self
  cases fuel with
  | zero => rfl
  | succ fuel =>
      rw [modified?]
      cases hmodifier : modifier? (name ++ rest) with
      | none => rfl
      | some found =>
          obtain ⟨word, behind⟩ := found
          have hbehind : Barren behind := by
            rcases of_orElse hmodifier with hkeyword | ⟨-, hrange⟩
            · have hjoined : List.intercalate ", " [name] = name := List.intercalate_singleton
              rw [← hjoined] at hkeyword
              rcases of_keyword?_intercalate hbefore hkeyword with rfl | hbehind
              · exact hbarren
              · exact hbehind
            · obtain ⟨⟨range, more⟩, hscan, -⟩ := Option.map_eq_some_iff.1 hrange
              rw [range?_eq_none fun c hc heq => ?_] at hscan
              · cases hscan
              · have hpart := hname.head rest c hc
                rw [heq] at hpart
                cases hpart
          show ((modified? fuel behind).bind _ <|> _) = _
          rw [modified?_of_barren hbehind]
          rfl

end

/-- Modifiers and what stands a gap behind them start with a space. -/
theorem stops_spacedModifiers {p : CodePoint → Bool} (hp : p ' ' = false) (modifiers : List Text)
    {b : Nat} (hb : 0 < b) (s : Text) :
    Stops p (spacedModifiers modifiers ++ (Text.spaces b ++ s)) := by
  cases modifiers with
  | nil => exact stops_spaces hp hb s
  | cons next others => exact Text.stops_cons.2 hp

/-- The first of the modifiers, without the space in front of it. -/
theorem trimLeft_spacedModifiers {modifier : Text} (h : IsModifier modifier)
    (modifiers : List Text) (s : Text) :
    Text.trimLeft (spacedModifiers (modifier :: modifiers) ++ s) =
      modifier ++ (spacedModifiers modifiers ++ s) := by
  rw [spacedModifiers_cons, List.cons_append, List.append_assoc]
  refine Text.trimLeft_append (Text.allBlank_spaces 1) ?_
  exact Text.stops_append_of_ne_nil h.ne_nil h.stops _

section
variable {modifiers : List Text} (hmodifiers : ∀ m ∈ modifiers, IsModifier m)
  {name rest : Text} (hname : IsName name)
include hmodifiers hname

/-- No equals sign stands in front of the name. -/
theorem trimLeft_modifiers_ne (b : Nat) (t : Text) :
    Text.trimLeft (spacedModifiers modifiers ++ (Text.spaces b ++ (name ++ rest))) ≠
      .char '=' :: t := by
  intro ht
  cases modifiers with
  | nil =>
      have hcut : Text.trimLeft (Text.spaces b ++ (name ++ rest)) = name ++ rest :=
        Text.trimLeft_append (Text.allBlank_spaces b) hname.stops
      rw [spacedModifiers, List.flatMap_nil, List.nil_append, hcut] at ht
      have hpart := hname.head rest (.char '=') (congrArg List.head? ht)
      cases hpart
  | cons next others =>
      have hnext := hmodifiers next List.mem_cons_self
      rw [trimLeft_spacedModifiers hnext] at ht
      obtain ⟨c, s, rfl, hc⟩ := hnext.exists_head
      obtain rfl := (List.cons.inj ht).1
      rcases hc with hc | hc <;> cases hc

/-- Modifiers are read back as far as they go. -/
theorem modified?_modifiers (hbefore : NamesBefore [name] rest)
    (hbarren : Barren (Text.trimLeft rest)) {b : Nat} (hb : 0 < b) {fuel : Nat}
    (hfuel : modifiers.length ≤ fuel) :
    modified? fuel (Text.trimLeft (spacedModifiers modifiers ++
      (Text.spaces b ++ (name ++ rest)))) =
        (namedValue? (name ++ rest)).map (modifiers, ·) := by
  induction modifiers generalizing fuel with
  | nil =>
      have hcut : Text.trimLeft (Text.spaces b ++ (name ++ rest)) = name ++ rest :=
        Text.trimLeft_append (Text.allBlank_spaces b) hname.stops
      rw [spacedModifiers, List.flatMap_nil, List.nil_append, hcut]
      exact modified?_name hbefore hbarren fuel
  | cons modifier modifiers ih =>
      obtain ⟨hfirst, hothers⟩ := List.forall_mem_cons.1 hmodifiers
      obtain ⟨fuel, rfl⟩ := Nat.exists_eq_add_of_lt (Nat.lt_of_lt_of_le (Nat.succ_pos _) hfuel)
      rw [Nat.zero_add] at hfuel ⊢
      have hnext := ih hothers (Nat.le_of_succ_le_succ hfuel)
      rw [trimLeft_spacedModifiers hfirst, modified?,
        modifier?_append hfirst (stops_spacedModifiers rfl modifiers hb _)]
      show ((modified? fuel _).bind _ <|> _) = _
      rw [hnext]
      cases hnamed : namedValue? (name ++ rest) with
      | some found => rfl
      | none =>
          -- The modifier is not the name either, since no equals sign follows it.
          have hfirstNone : namedValue? (modifier ++ (spacedModifiers modifiers ++
              (Text.spaces b ++ (name ++ rest)))) = none := by
            refine namedValue?_eq_none fun found behind hfound => ?_
            rcases hfirst with hword | ⟨body, rfl, -⟩
            · rw [name?_append (isName_of_mem_parameterTypes modifier hword)
                (stops_spacedModifiers rfl modifiers hb _)] at hfound
              obtain ⟨-, rfl⟩ := Prod.mk.inj (Option.some.inj hfound)
              exact trimLeft_modifiers_ne hothers hname b
            · cases hfound
          rw [hfirstNone]
          rfl

end

/-! ## What was read -/

section
variable (columns : Columns)

/-- A word is written as it is. -/
theorem writtenModifier_of_mem {word : Text} (h : word ∈ parameterTypes) :
    writtenModifier columns word = word := by
  have hstart : ∀ word ∈ parameterTypes, Text.startsWith word "[" = false := by decide
  rw [writtenModifier, hstart word h]
  rfl

/-- A range is written in its normal form. -/
theorem writtenModifier_of_isRange {range : Text} (h : Range.IsRange range) :
    writtenModifier columns range = Range.normalise columns range := by
  obtain ⟨body, rfl, -⟩ := h
  rfl

/-- What is written for a modifier is one. -/
theorem isModifier_writtenModifier {modifier : Text} (h : IsModifier modifier) :
    IsModifier (writtenModifier columns modifier) := by
  rcases h with h | h
  · rw [writtenModifier_of_mem columns h]
    exact .inl h
  · rw [writtenModifier_of_isRange columns h]
    exact .inr (Range.isRange_normalise columns h)

/-- Writing a modifier twice is writing it once. -/
theorem writtenModifier_writtenModifier {modifier : Text} (h : IsModifier modifier) :
    writtenModifier columns (writtenModifier columns modifier) =
      writtenModifier columns modifier := by
  rcases h with h | h
  · rw [writtenModifier_of_mem columns h, writtenModifier_of_mem columns h]
  · rw [writtenModifier_of_isRange columns h,
      writtenModifier_of_isRange columns (Range.isRange_normalise columns h),
      Range.normalise_normalise columns _]

theorem endsPlain_of_isModifier {modifier : Text} (h : IsModifier modifier) :
    Watch.EndsPlain (.char ' ' :: modifier) := by
  intro c hc
  rw [List.getLast?_cons_of_ne_nil h.ne_nil] at hc
  rcases h with h | h
  · have hmild := isNeat_of_isKeyword (isKeyword_of_mem_parameterTypes modifier h)
    exact Watch.endsPlain_of_isMild (fun c hc => (hmild c hc).1) c hc
  · exact Range.endsPlain_of_isRange h c hc

/-- A modifier is passed over, or it is a range and only its gaps are changed. -/
theorem of_modifier? {s modifier rest : Text} (h : modifier? s = some (modifier, rest)) :
    IsModifier modifier ∧ rest <:+ s ∧
      Watch.MayBecome s (.char ' ' :: writtenModifier columns modifier ++ rest) := by
  rcases of_orElse h with h | ⟨-, h⟩
  · have hpasses := passes_of_keyword? h
    obtain ⟨front, hfront, -⟩ := id hpasses
    obtain ⟨hmem, hword, -⟩ := of_keyword? h
    refine ⟨.inl hmem, ⟨front, hfront.symm⟩, ?_⟩
    rw [writtenModifier_of_mem columns hmem]
    refine .neat_append (List.forall_mem_cons.2 ⟨by decide, ?_⟩) hpasses.mayBecome
    exact isNeat_of_isKeyword (isKeyword_of_mem_parameterTypes modifier hmem)
  · obtain ⟨⟨range, behind⟩, hrange, heq⟩ := Option.map_eq_some_iff.1 h
    obtain ⟨rfl, rfl⟩ := Prod.mk.inj heq
    have hsquare := isRange_of_range? hrange
    have hpasses := Passes.trimLeft behind
    obtain ⟨front, hfront, -⟩ := id hpasses
    rw [← append_of_range? hrange, writtenModifier_of_isRange columns hsquare]
    refine ⟨.inr hsquare, ⟨range ++ front, ?_⟩, ?_⟩
    · rw [List.append_assoc, ← hfront]
    · exact .neat_append (t := [.char ' ']) (by decide)
        ((Range.mayBecome_normalise columns hsquare).append
          (Range.endsPlain_of_isRange hsquare) hpasses.mayBecome)

/-- The modifiers, the name and the value of a parameter are well formed, and only the ranges and
the value count. -/
theorem of_modified? {fuel : Nat} {s : Text} {modifiers : List Text} {name value terminator : Text}
    (h : modified? fuel s = some (modifiers, name, value, terminator)) :
    (∀ m ∈ modifiers, IsModifier m) ∧ IsName name ∧
      ∃ t, t <:+ s ∧ parameterValue? t = some (value, terminator) ∧
        Watch.MayBecome s (spacedModifiers (modifiers.map (writtenModifier columns)) ++ t) := by
  have hplain : ∀ {s modifiers}, (namedValue? s).map ([], ·) =
      some (modifiers, name, value, terminator) → (∀ m ∈ modifiers, IsModifier m) ∧ IsName name ∧
        ∃ t, t <:+ s ∧ parameterValue? t = some (value, terminator) ∧
          Watch.MayBecome s (spacedModifiers (modifiers.map (writtenModifier columns)) ++ t) := by
    intro s modifiers h
    obtain ⟨named, hnamed, heq⟩ := Option.map_eq_some_iff.1 h
    obtain ⟨rfl, rfl⟩ := Prod.mk.inj heq
    obtain ⟨hname, t, hpasses, hvalue⟩ := of_namedValue? hnamed
    obtain ⟨front, hfront, -⟩ := id hpasses
    exact ⟨List.forall_mem_nil _, hname, t, ⟨front, hfront.symm⟩, hvalue, hpasses.mayBecome⟩
  induction fuel generalizing s modifiers with
  | zero => exact hplain h
  | succ fuel ih =>
      rcases of_orElse h with h | ⟨-, h⟩
      · obtain ⟨⟨modifier, rest⟩, hmodifier, h⟩ := Option.bind_eq_some_iff.1 h
        obtain ⟨⟨others, named⟩, hrec, h⟩ := Option.bind_eq_some_iff.1 h
        obtain ⟨rfl, rfl⟩ := Prod.mk.inj (Option.some.inj h)
        obtain ⟨hfirst, hsuffix, hbecome⟩ := of_modifier? columns hmodifier
        obtain ⟨hothers, hname, t, hrest, hvalue, hmore⟩ := ih hrec
        refine ⟨List.forall_mem_cons.2 ⟨hfirst, hothers⟩, hname, t, hrest.trans hsuffix, hvalue, ?_⟩
        rw [List.map_cons, spacedModifiers_cons, List.cons_append, List.append_assoc,
          ← List.cons_append]
        exact hbecome.trans (.append (.refl _)
          (endsPlain_of_isModifier (isModifier_writtenModifier columns hfirst)) hmore)
      · exact hplain h

end

/-! ## Parameters -/

section
variable {keyword name value terminator : Text} {modifiers : List Text}

/-- The fields of a parameter in front of its value. -/
structure IsNamed (keyword : Text) (modifiers : List Text) (name : Text) : Prop where
  keyword : keyword ∈ parameterKeywords
  isModifier : ∀ modifier ∈ modifiers, IsModifier modifier
  isName : IsName name

/-- Writing the ranges among the modifiers keeps the fields well formed. -/
theorem IsNamed.written (h : IsNamed keyword modifiers name) (columns : Columns) :
    IsNamed keyword (modifiers.map (writtenModifier columns)) name := by
  refine { h with isModifier := fun written hwritten => ?_ }
  obtain ⟨modifier, hmem, rfl⟩ := List.mem_map.1 hwritten
  exact isModifier_writtenModifier columns (h.isModifier modifier hmem)

theorem endsPlain_spacedModifiers (h : ∀ m ∈ modifiers, IsModifier m) :
    Watch.EndsPlain (spacedModifiers modifiers) := by
  intro c hc
  rcases List.eq_nil_or_concat modifiers with rfl | ⟨front, last, rfl⟩
  · cases hc
  · rw [List.concat_eq_append] at h hc
    have hlast := h last (List.mem_append_right _ List.mem_cons_self)
    rw [spacedModifiers, List.flatMap_append, List.flatMap_singleton, List.getLast?_append] at hc
    rcases Option.or_eq_some_iff.1 hc with hc | ⟨hnil, -⟩
    · exact endsPlain_of_isModifier hlast c hc
    · exact absurd (List.getLast?_eq_none_iff.1 hnil) (List.cons_ne_nil (.char ' ') last)

/-- A parameter that is read has its keyword, its modifiers and its name, and then either a value or
blanks and a semicolon. -/
theorem of_parameter? (columns : Columns) {code : Text} {form : LineForm}
    (hlast : Stops Text.isBlank code.reverse) (h : parameter? code = some form) :
    ∃ keyword modifiers name value terminator,
      form = .parameter keyword modifiers name value terminator ∧
        IsNamed keyword modifiers name ∧ (∃ behind, code = keyword ++ behind) ∧
          (value = [] ∧ terminator = [.char ';'] ∧ Watch.MayBecome code
              (spacedModifiers (modifiers.map (writtenModifier columns)) ++ [.char ';']) ∨
            IsParameterValue value terminator ∧ ∀ n, Watch.MayBecome code
              (spacedModifiers (modifiers.map (writtenModifier columns)) ++
                .char ' ' :: (value ++ gapped n terminator))) := by
  obtain ⟨⟨keyword, rest⟩, hkeyword, h⟩ := Option.bind_eq_some_iff.1 h
  obtain ⟨⟨modifiers, name, value, terminator⟩, hmodified, h⟩ := Option.bind_eq_some_iff.1 h
  obtain ⟨hmem, -, behind, hcode, -, hrest⟩ := of_keyword? hkeyword
  obtain ⟨hmodifiers, hname, t, hsuffix, hvalue, hbecome⟩ := of_modified? columns hmodified
  have hnamed : IsNamed keyword modifiers name := ⟨hmem, hmodifiers, hname⟩
  have hplain := endsPlain_spacedModifiers (hnamed.written columns).isModifier
  have hstart := (passes_of_keyword? hkeyword).mayBecome.trans hbecome
  have htlast : Stops Text.isBlank t.reverse := by
    obtain ⟨front, hfront⟩ := hsuffix
    obtain ⟨front', hfront'⟩ : rest <:+ code := by
      rw [hcode, hrest]
      exact (List.dropWhile_suffix _).trans (List.suffix_append keyword behind)
    rw [← hfront', ← hfront, ← List.append_assoc, List.reverse_append] at hlast
    exact hlast.left
  refine ⟨keyword, modifiers, name, value, terminator, (Option.some.inj h).symm, hnamed,
    ⟨behind, hcode⟩, ?_⟩
  rcases of_parameterValue? htlast hvalue with ⟨hnil, hterminator, hpasses⟩ | ⟨hisValue, hmore⟩
  · exact .inl ⟨hnil, hterminator, hstart.trans (.append (.refl _) hplain hpasses.mayBecome)⟩
  · exact .inr ⟨hisValue, fun n => hstart.trans (.append (.refl _) hplain (hmore n))⟩

/-- The fuel that reads modifiers is enough. -/
theorem length_le_trimLeft (h : ∀ m ∈ modifiers, IsModifier m) (s : Text) :
    modifiers.length ≤ (Text.trimLeft (spacedModifiers modifiers ++ s)).length := by
  cases modifiers with
  | nil => exact Nat.zero_le _
  | cons modifier modifiers =>
      have hfirst := h modifier List.mem_cons_self
      have hpos := List.length_pos_iff.2 hfirst.ne_nil
      have hle := length_le_spacedModifiers modifiers
      rw [trimLeft_spacedModifiers hfirst, List.length_append, List.length_append,
        List.length_cons]
      omega

/-- A parameter is read up to its value. -/
theorem parameter?_named (h : IsNamed keyword modifiers name) {rest : Text}
    (hbefore : NamesBefore [name] rest) (hbarren : Barren (Text.trimLeft rest)) {b : Nat}
    (hb : 0 < b) :
    parameter? (keyword ++ (spacedModifiers modifiers ++ (Text.spaces b ++ (name ++ rest)))) =
      (namedValue? (name ++ rest)).map fun (name, value, terminator) =>
        .parameter keyword modifiers name value terminator := by
  have hword := isKeyword_of_mem_parameterKeywords keyword h.keyword
  rw [parameter?, keyword?_append h.keyword hword.2 (stops_spacedModifiers rfl modifiers hb _)]
  show (modified? _ _).bind _ = _
  rw [modified?_modifiers h.isModifier h.isName hbefore hbarren hb
    (length_le_trimLeft h.isModifier _)]
  cases namedValue? (name ++ rest) <;> rfl

/-- The fields of a parameter are read back. -/
theorem parameter?_written (h : IsNamed keyword modifiers name)
    (hvalue : IsParameterValue value terminator) {b c n : Nat} (hb : 0 < b) (hc : 0 < c) :
    parameter? (keyword ++ (spacedModifiers modifiers ++ (Text.spaces b ++ (name ++
      (Text.spaces c ++ .char '=' :: .char ' ' :: (value ++ gapped n terminator)))))) =
        some (.parameter keyword modifiers name value terminator) := by
  have htrim :
      Text.trimLeft (Text.spaces c ++ .char '=' :: .char ' ' :: (value ++ gapped n terminator)) =
      .char '=' :: .char ' ' :: (value ++ gapped n terminator) :=
    Text.trimLeft_append (Text.allBlank_spaces c) (Text.stops_cons.2 rfl)
  have hrest : Stops isNamePart
      (Text.spaces c ++ .char '=' :: .char ' ' :: (value ++ gapped n terminator)) :=
    stops_spaces rfl hc _
  have hbefore : NamesBefore [name]
      (Text.spaces c ++ .char '=' :: .char ' ' :: (value ++ gapped n terminator)) :=
    ⟨List.cons_ne_nil name [], List.forall_mem_singleton.2 h.isName, hrest,
      moreNames_eq fun t ht => by rw [htrim] at ht; cases ht⟩
  rw [parameter?_named h hbefore (by rw [htrim]; exact .cons (by decide) _) hb,
    namedValue?_append h.isName hrest htrim, parameterValue?_written hvalue]
  rfl

/-- Without an equals sign there is no parameter. -/
theorem parameter?_blank (h : IsNamed keyword modifiers name)
    (hterminator : IsTerminator terminator) {b : Nat} (hb : 0 < b) (n : Nat) :
    parameter? (keyword ++ (spacedModifiers modifiers ++ (Text.spaces b ++
      (name ++ gapped n terminator)))) = none := by
  have htrim : Text.trimLeft (gapped n terminator) = terminator := trimLeft_terminator hterminator n
  have hbefore := namesBefore_terminator (List.cons_ne_nil name [])
    (List.forall_mem_singleton.2 h.isName) hterminator n
  rw [parameter?_named h hbefore (by rw [htrim]; exact hterminator.barren) hb,
    namedValue?_eq_none]
  · rfl
  · intro found behind hfound
    rw [name?_append h.isName hbefore.stops] at hfound
    obtain ⟨-, rfl⟩ := Prod.mk.inj (Option.some.inj hfound)
    rw [htrim]
    rcases hterminator with rfl | rfl | rfl <;> exact nofun

/-! ## The line of a parameter -/

section
variable (columns : Columns) (inParameters : Bool) (indent : Nat)

/-- A parameter as far as its name. -/
theorem exists_named (h : IsNamed keyword modifiers name) (column shift : Nat) (target : Int) :
    ∃ b, 0 < b ∧ ((Layout.appendWord (place {} keyword (column + shift))
      (List.intercalate " " modifiers)).place name target).text =
        Text.spaces (column + shift) ++ (keyword ++ (spacedModifiers modifiers ++
          (Text.spaces b ++ name))) := by
  have hword := isKeyword_of_mem_parameterKeywords keyword h.keyword
  have hstart := place_start hword.1 column shift
  have htext := text_appendWord (place {} keyword (column + shift)) (List.intercalate " " modifiers)
  rw [gapped_intercalate fun modifier hmem => (h.isModifier modifier hmem).ne_nil, hstart] at htext
  have hne : (Layout.appendWord (place {} keyword (column + shift))
      (List.intercalate " " modifiers)).text ≠ [] := by
    rw [htext, List.append_assoc]
    exact List.append_ne_nil_of_right_ne_nil _ (List.append_ne_nil_of_left_ne_nil hword.1 _)
  obtain ⟨b, hb, hname⟩ := exists_gap hne name target
  refine ⟨b, hb, ?_⟩
  rw [hname, htext, gapped_of_ne_nil b h.isName.ne_nil, List.append_assoc, List.append_assoc]

/-- The line of a parameter with a value. -/
theorem exists_layout_parameter (h : IsNamed keyword modifiers name) (hvalue : value ≠ []) :
    ∃ b c n, (0 < b ∧ 0 < c) ∧
      layout columns indent inParameters (.parameter keyword modifiers name value terminator) =
        Text.spaces (columns .parameterKeyword + shiftFor indent (columns .parameterKeyword)) ++
          (keyword ++ (spacedModifiers (modifiers.map (writtenModifier columns)) ++
            (Text.spaces b ++ (name ++ (Text.spaces c ++
              .char '=' :: .char ' ' :: (value ++ gapped n terminator)))))) := by
  obtain ⟨b, hb, hnamed⟩ := exists_named (h.written columns) (columns .parameterKeyword)
    (shiftFor indent (columns .parameterKeyword))
    (columns .parameterName + shiftFor indent (columns .parameterKeyword))
  rw [layout, Layout.parameter]
  dsimp only
  rw [if_neg fun hempty => hvalue (List.isEmpty_iff.1 hempty)]
  generalize place (Layout.appendWord _ _) _ _ = line at hnamed ⊢
  have hne : line.text ≠ [] := by
    rw [hnamed]
    simp [h.isName.ne_nil]
  obtain ⟨c, hc, hequals⟩ := exists_gap hne "="
    (columns .parameterEquals + shiftFor indent (columns .parameterKeyword))
  obtain ⟨n, hend⟩ := exists_end ((line.place "=" (columns .parameterEquals +
    shiftFor indent (columns .parameterKeyword))).append (" " ++ value)) terminator
    (columns .parameterEnd + shiftFor indent (columns .parameterKeyword))
  refine ⟨b, c, n, ⟨hb, hc⟩, ?_⟩
  have hgap : gapped c ("=" : Text) = Text.spaces c ++ [.char '='] := gapped_of_ne_nil c (by decide)
  rw [hend, append, hequals, hnamed, hgap]
  simp only [List.append_assoc]
  rfl

/-- The line of a parameter with a blank value. -/
theorem exists_layout_blank (h : IsNamed keyword modifiers name) :
    ∃ b n, 0 < b ∧
      layout columns indent inParameters (.parameter keyword modifiers name [] terminator) =
        Text.spaces (columns .parameterKeyword + shiftFor indent (columns .parameterKeyword)) ++
          (keyword ++ (spacedModifiers (modifiers.map (writtenModifier columns)) ++
            (Text.spaces b ++ (name ++ gapped n terminator)))) := by
  obtain ⟨b, hb, hnamed⟩ := exists_named (h.written columns) (columns .parameterKeyword)
    (shiftFor indent (columns .parameterKeyword))
    (columns .parameterName + shiftFor indent (columns .parameterKeyword))
  rw [layout, Layout.parameter]
  dsimp only
  rw [if_pos List.isEmpty_nil]
  generalize place (Layout.appendWord _ _) _ _ = line at hnamed ⊢
  obtain ⟨n, hend⟩ := exists_end line terminator
    (columns .parameterEnd + shiftFor indent (columns .parameterKeyword))
  refine ⟨b, n, hb, ?_⟩
  rw [hend, hnamed]
  simp only [List.append_assoc]

end

/-! ## Parameters that are settled -/

/-- A first word that declares no signal keeps a text from being one. -/
theorem signal?_eq_none {s : Text} (h : s.takeWhile Text.isWord ∉ signalKeywords) :
    signal? s = none := by
  rw [signal?, keyword?_eq_none h]
  rfl

/-- Without its keyword there is no assignment. -/
theorem assign?_eq_none {s : Text} (h : s.takeWhile Text.isWord ≠ ("assign" : Text)) :
    assign? s = none :=
  if_neg fun hall => h hall.1

/-- Without a point in front there is no connection. -/
theorem connection?_eq_none {s : Text} (h : s.head? ≠ some (.char '.')) : connection? s = none := by
  unfold connection?
  split
  · exact absurd rfl h
  · rfl

theorem not_mem_of_mem_parameterKeywords : ∀ word ∈ parameterKeywords,
    word ∉ directions ∧ word ∉ signalKeywords ∧ word ≠ ("assign" : Text) ∧
      word.head? ≠ some (.char '.') := by
  decide

section
variable {b : Nat} (h : IsNamed keyword modifiers name) (hb : 0 < b)
include h

theorem isTight_named {s : Text} (hs : Text.Ends Text.isBlank s) (b : Nat) :
    Text.IsTight (keyword ++ (spacedModifiers modifiers ++ (Text.spaces b ++ s))) :=
  ⟨(starts_of_isKeyword (isKeyword_of_mem_parameterKeywords keyword h.keyword) [] _).1,
    (((hs.append _).append _).append _).stops⟩

theorem isTight_parameter (hvalue : IsParameterValue value terminator) (b c n : Nat) :
    Text.IsTight (keyword ++ (spacedModifiers modifiers ++ (Text.spaces b ++ (name ++
      (Text.spaces c ++ .char '=' :: .char ' ' :: (value ++ gapped n terminator)))))) := by
  have hend := ends_terminator (Text.ends_of_stops hvalue.ne_nil hvalue.isValue.tight.last)
    hvalue.isTerminator n
  exact isTight_named h (((hend.append [.char '=', .char ' ']).append _).append _) b

theorem isTight_blank (hterminator : IsTerminator terminator) (b n : Nat) :
    Text.IsTight (keyword ++ (spacedModifiers modifiers ++ (Text.spaces b ++
      (name ++ gapped n terminator)))) := by
  have hend : Text.Ends Text.isBlank name := by
    refine Text.ends_of_stops h.isName.ne_nil fun c hc => ?_
    rw [List.head?_reverse] at hc
    exact isBlank_eq_false (h.isName.forall_mem c (List.mem_of_getLast? hc))
  exact isTight_named h (ends_terminator hend hterminator n) b

include hb

/-- What starts as a parameter does is read as one, if it has a form. -/
theorem parameter?_of_ofCode? {s : Text} {form : LineForm} (hform : ofCode? (keyword ++
    (spacedModifiers modifiers ++ (Text.spaces b ++ s))) = some form) :
    parameter? (keyword ++ (spacedModifiers modifiers ++ (Text.spaces b ++ s))) = some form := by
  have hword := isKeyword_of_mem_parameterKeywords keyword h.keyword
  obtain ⟨hport, hsignal, hassign, hdot⟩ := not_mem_of_mem_parameterKeywords keyword h.keyword
  have hfirst := takeWhile_keyword hword (stops_spacedModifiers rfl modifiers hb s)
  rcases (of_ofCode? hform).2 with hfound | ⟨-, hfound | ⟨-, hfound | ⟨-, hfound | ⟨-, hfound⟩⟩⟩⟩
  · rw [port?_eq_none (by rwa [hfirst])] at hfound
    cases hfound
  · rw [signal?_eq_none (by rwa [hfirst])] at hfound
    cases hfound
  · exact hfound
  · rw [assign?_eq_none (by rwa [hfirst])] at hfound
    cases hfound
  · rw [connection?_eq_none] at hfound
    · cases hfound
    · obtain ⟨c, keyword, rfl⟩ := List.exists_cons_of_ne_nil hword.1
      exact hdot

/-- The code of a parameter is read as that parameter. -/
theorem eq_parameter_of_ofCode? (hvalue : IsParameterValue value terminator) {c n : Nat}
    (hc : 0 < c) {form : LineForm} (hform : ofCode? (keyword ++ (spacedModifiers modifiers ++
      (Text.spaces b ++ (name ++ (Text.spaces c ++
        .char '=' :: .char ' ' :: (value ++ gapped n terminator)))))) = some form) :
    form = .parameter keyword modifiers name value terminator := by
  have hread := parameter?_of_ofCode? h hb hform
  rw [parameter?_written h hvalue hb hc] at hread
  exact (Option.some.inj hread).symm

/-- Without its equals sign a parameter has no form. -/
theorem ofCode?_blank_ne (hterminator : IsTerminator terminator) (n : Nat) (form : LineForm) :
    ofCode? (keyword ++ (spacedModifiers modifiers ++ (Text.spaces b ++
      (name ++ gapped n terminator)))) ≠ some form := by
  intro hform
  have hread := parameter?_of_ofCode? h hb hform
  rw [parameter?_blank h hterminator hb] at hread
  cases hread

end

/-- A parameter that is laid out is settled. -/
theorem settled_parameter (columns : Columns) (inParameters : Bool) (indent : Nat) {code : Text}
    {form : LineForm} (hlast : Stops Text.isBlank code.reverse) (h : parameter? code = some form) :
    ∃ start code', form.layout columns indent inParameters = Text.spaces start ++ code' ∧
      Settled columns inParameters start code code' := by
  obtain ⟨keyword, modifiers, name, value, terminator, rfl, hnamed, ⟨behind, hcode⟩, hread⟩ :=
    of_parameter? columns hlast h
  have hword := isKeyword_of_mem_parameterKeywords keyword hnamed.keyword
  have hwritten := hnamed.written columns
  have hplain := endsPlain_spacedModifiers hwritten.isModifier
  have hname : ∀ c ∈ name, Watch.IsNeat c :=
    fun c hc => Watch.isNeat_of_isNamePart (hnamed.isName.forall_mem c hc)
  -- Without a value the line is laid out as a bare name, which is never read as a form again.
  rcases hread with ⟨rfl, rfl, hbecome⟩ | ⟨hvalue, hbecome⟩
  · have hterminator : IsTerminator [.char ';'] := .inr (.inr rfl)
    obtain ⟨b, n, hb, hline⟩ := exists_layout_blank columns inParameters indent hnamed
    refine ⟨_, _, hline, isTight_blank hwritten hterminator b n,
      hcode ▸ (starts_of_isKeyword hword behind _).2, ?_, ?_⟩
    · refine hbecome.trans (.neat_append (isNeat_of_isKeyword hword) (.append (.refl _) hplain ?_))
      exact .neat_append (fun _ => Watch.isNeat_of_mem_spaces)
        (.neat_append hname (mayBecome_gapped [.char ';'] n))
    · exact fun _ form hform => absurd hform (ofCode?_blank_ne hwritten hb hterminator n form)
  · obtain ⟨b, c, n, ⟨hb, hc⟩, hline⟩ :=
      exists_layout_parameter columns inParameters indent hnamed hvalue.ne_nil
    refine ⟨_, _, hline, isTight_parameter hwritten hvalue b c n,
      hcode ▸ (starts_of_isKeyword hword behind _).2, ?_, ?_⟩
    · refine (hbecome n).trans (.neat_append (isNeat_of_isKeyword hword)
        (.append (.refl _) hplain ?_))
      refine .neat_append (fun _ => Watch.isNeat_of_mem_spaces) (.neat_append hname ?_)
      exact .neat_append (fun _ => Watch.isNeat_of_mem_spaces)
        (.neat_append (t := [.char '=']) (by decide) (.refl _))
    · intro _ form hform
      obtain rfl := eq_parameter_of_ofCode? hwritten hb hvalue hc hform
      have hsame : modifiers.map (writtenModifier columns ∘ writtenModifier columns) =
          modifiers.map (writtenModifier columns) :=
        List.map_congr_left fun modifier hmem =>
          writtenModifier_writtenModifier columns (hnamed.isModifier modifier hmem)
      rw [← hline, layout, layout, shiftFor_add, List.map_map, hsame]

end

end LineForm
end VerilogLayout

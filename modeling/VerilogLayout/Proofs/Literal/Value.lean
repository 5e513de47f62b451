import VerilogLayout.Proofs.Source.Ink
import VerilogLayout.Proofs.Source.Place

/-!
# Values between texts without quotes

The value of a declaration may hold strings. In the code that was read and in the line that is
written the value is the same, and only texts without quotes stand around it: `frames_code` and
`frames_layout`.
-/

namespace VerilogLayout

open Text (ink ink_append AllBlank)

/-- A text without quotes. -/
def Unquoted (s : Text) : Prop :=
  .char '"' ∉ s

instance (s : Text) : Decidable (Unquoted s) :=
  inferInstanceAs (Decidable (.char '"' ∉ s))

namespace Unquoted

variable {s t : Text}

theorem append (hs : Unquoted s) (ht : Unquoted t) : Unquoted (s ++ t) :=
  fun hmem => (List.mem_append.1 hmem).elim hs ht

/-- A class without the quote holds no quoted text. -/
theorem of_forall {p : CodePoint → Bool} (hp : p '"' = false) (h : ∀ c ∈ s, p c) : Unquoted s :=
  fun hmem => Bool.false_ne_true (hp.symm.trans (h '"' hmem))

/-- Blanks hold no quote. -/
theorem of_allBlank (h : AllBlank s) : Unquoted s :=
  of_forall rfl h

/-- Names hold no quote. -/
theorem of_isNamePart (h : ∀ c ∈ s, Scan.isNamePart c) : Unquoted s :=
  of_forall rfl h

theorem spaces (n : Nat) : Unquoted (Text.spaces n) :=
  of_allBlank (Text.allBlank_spaces n)

/-- Quotes are ink. -/
theorem of_ink (h : Unquoted t) (heq : ink s = ink t) : Unquoted s := by
  intro hmem
  have hink : .char '"' ∈ ink s := List.mem_filter.2 ⟨hmem, rfl⟩
  rw [heq] at hink
  exact h (List.mem_filter.1 hink).1

/-- Spaces in front bring no quote. -/
theorem gapped (h : Unquoted s) (n : Nat) : Unquoted (Line.gapped n s) := by
  rw [Line.gapped_eq]
  exact (spaces _).append h

/-- Texts without quotes hold none together. -/
theorem flatten {texts : List Text} (h : ∀ text ∈ texts, Unquoted text) :
    Unquoted texts.flatten := by
  intro hmem
  obtain ⟨text, htext, hquote⟩ := List.mem_flatten.1 hmem
  exact h text htext hquote

end Unquoted

/-! ## Texts around a value -/

/-- `s` is `value` between two texts without quotes. -/
def Frames (s value : Text) : Prop :=
  ∃ front back, s = front ++ (value ++ back) ∧ Unquoted front ∧ Unquoted back

namespace Frames

variable {s t value : Text}

theorem refl (value : Text) : Frames value value :=
  ⟨[], [], (List.append_nil value).symm, List.not_mem_nil, List.not_mem_nil⟩

/-- A text without quotes frames the empty value. -/
theorem of_unquoted (h : Unquoted s) : Frames s [] :=
  ⟨s, [], (List.append_nil s).symm, h, List.not_mem_nil⟩

theorem append_left (ht : Unquoted t) (h : Frames s value) : Frames (t ++ s) value := by
  obtain ⟨front, back, rfl, hfront, hback⟩ := h
  exact ⟨t ++ front, back, (List.append_assoc _ _ _).symm, ht.append hfront, hback⟩

theorem append_right (h : Frames s value) (ht : Unquoted t) : Frames (s ++ t) value := by
  obtain ⟨front, back, rfl, hfront, hback⟩ := h
  refine ⟨front, back ++ t, ?_, hfront, hback.append ht⟩
  rw [List.append_assoc, List.append_assoc]

/-- A value is framed by its blanks. -/
theorem trim (s : Text) : Frames s (Text.trim s) := by
  obtain ⟨front, back, hs, hfront, hback, -⟩ := Text.exists_trim s
  exact ⟨front, back, by rw [← List.append_assoc]; exact hs, .of_allBlank hfront,
    .of_allBlank hback⟩

/-- A text is framed if its end is and the ink in front of it has no quotes. -/
theorem of_suffix (fields : Text) (hsuffix : t <:+ s) (hink : ink s = ink fields ++ ink t)
    (hfields : Unquoted fields) (h : Frames t value) : Frames s value := by
  obtain ⟨front, rfl⟩ := hsuffix
  rw [ink_append] at hink
  exact h.append_left (hfields.of_ink (List.append_cancel_right hink))

end Frames

namespace LineForm

open Scan Line Place

/-- The value of a form, if it has one. -/
def value : LineForm → Text
  | .port .. => []
  | .signal _ _ _ _ _ value => value.getD []
  | .parameter _ _ _ value _ => value
  | .assign _ value => value
  | .connection _ value _ => value

/-- The fields besides the value that may hold any character. -/
def sides : LineForm → List Text
  | .port _ _ _ range _ _ => [range]
  | .signal _ _ range _ dimensions _ => range :: dimensions
  | .parameter _ modifiers _ _ _ => modifiers
  | .assign target _ => [target]
  | .connection .. => []

/-! ## Fields without quotes -/

theorem unquoted_of_isKeyword {word : Text} (h : IsKeyword word) : Unquoted word :=
  .of_forall rfl h.2

/-- What ends a declaration holds no quote. -/
theorem unquoted_of_isTerminator {terminator : Text} (h : IsTerminator terminator) :
    Unquoted terminator := by
  rcases h with rfl | rfl | rfl <;> decide

/-- A keyword, present or not, holds no quote. -/
theorem unquoted_optional {words : List Text} {word : Text} (h : word = [] ∨ word ∈ words)
    (hwords : ∀ word ∈ words, IsKeyword word) : Unquoted word := by
  rcases h with rfl | h
  · exact List.not_mem_nil
  · exact unquoted_of_isKeyword (hwords word h)

/-- Names with commas between them hold no quote. -/
theorem unquoted_names {names : List Text} (h : ∀ name ∈ names, IsName name) :
    Unquoted (List.intercalate ", " names) := by
  intro hmem
  rcases Text.mem_of_mem_intercalate hmem with hmem | ⟨name, hname, hmem⟩
  · exact absurd hmem (by decide)
  · exact Unquoted.of_isNamePart (h name hname).forall_mem hmem

theorem unquoted_isNet : ∀ word ∈ Keyword.netTypes, IsKeyword word :=
  fun word h => isKeyword_of_mem_signalKeywords word (List.mem_append_left _ h)

/-! ## Codes -/

section
variable {s terminator value : Text}

/-- Quotes stand in the value that is read, if there is one. -/
theorem frames_of_initialValue? {value : Option Text} (h : initialValue? s = some value) :
    Frames s (value.getD []) := by
  rcases initialValue?_cases h with ⟨rfl, rfl⟩ | ⟨body, rfl, -, rfl⟩
  · exact .of_unquoted (by decide)
  · exact .append_left (t := [.char '=']) (by decide) ((Frames.trim body).append_right (by decide))

/-- All quotes of what stands behind the name of a parameter are in its value. -/
theorem frames_of_parameterValue? (h : parameterValue? s = some (value, terminator)) :
    Frames s value := by
  obtain ⟨hsplit, hblank, -⟩ := Text.exists_run Text.isBlank s
  have hfront : ∀ {rest}, Text.trimLeft s = rest → Frames rest value → Frames s value := by
    rintro rest rfl hrest
    rw [hsplit]
    exact hrest.append_left (.of_allBlank hblank)
  cases readsValue_of_parameterValue? h with
  | blank htrim => exact hfront htrim (.of_unquoted (by decide))
  | @ended rest c t ht htrim _ =>
      refine hfront htrim ?_
      have hmark : Unquoted [t] := by rcases ht with rfl | rfl <;> decide
      obtain ⟨back, hback, hblankBack, -⟩ := Text.exists_trimRight (c :: rest)
      have hframes := (Frames.refl (Text.trimRight (c :: rest))).append_right
        (.of_allBlank hblankBack)
      rw [← hback] at hframes
      exact hframes.append_right hmark
  | opened htrim _ _ => exact hfront htrim (.refl _)

end

section
variable {code : Text} {form : LineForm}

/-- No port has a quote but in its range. -/
theorem unquoted_fields {keyword net signing range terminator : Text} {names : List Text}
    (h : IsPort keyword net signing range names terminator) (hrange : Unquoted range) :
    Unquoted (port keyword net signing range names terminator).fields.flatten := by
  refine .flatten ?_
  simp only [fields, List.forall_mem_cons, List.not_mem_nil, false_implies, implies_true, and_true]
  exact ⟨unquoted_of_isKeyword (isKeyword_of_mem_directions keyword h.keyword),
    unquoted_optional h.net unquoted_isNet,
    unquoted_optional h.vector.signing isKeyword_of_mem_signings, hrange,
    unquoted_names h.vector.isName, unquoted_of_isTerminator h.terminator⟩

/-- A port has no value, so it has no quotes outside of its fields. -/
theorem frames_of_port? (h : port? code = some form) (hsides : ∀ side ∈ form.sides, Unquoted side) :
    Frames code form.value := by
  have hink := ink_of_port? h
  obtain ⟨_, _, _, _, _, _, rfl, hport, -⟩ := of_port? h
  rw [← Text.ink_flatten] at hink
  exact .of_unquoted ((unquoted_fields hport (hsides _ List.mem_cons_self)).of_ink hink)

/-- A signal is its value, framed by the fields in front. -/
theorem frames_of_signal? (h : signal? code = some form) (hsafe : form.isSafe)
    (hsides : ∀ side ∈ form.sides, Unquoted side) : Frames code form.value := by
  obtain ⟨_, _, _, _, _, _, rfl, hsignal, -⟩ := of_signal? h hsafe
  obtain ⟨⟨keyword, rest⟩, hkeyword, h⟩ := Option.bind_eq_some_iff.1 h
  obtain ⟨⟨signing, range, names, rest'⟩, hvector, h⟩ := Option.bind_eq_some_iff.1 h
  obtain ⟨value, hvalue, h⟩ := Option.bind_eq_some_iff.1 h
  obtain ⟨rfl, rfl, rfl, rfl, rfl, rfl⟩ := LineForm.signal.inj (Option.some.inj h)
  obtain ⟨hrange, hdimensions⟩ := List.forall_mem_cons.1 hsides
  have hspans := (((spans_of_keyword? hkeyword).trans (spans_of_vector? hvector)).trans
    (.trimLeft rest')).trans (spans_ranges _)
  obtain ⟨front, hfront, -⟩ := hspans
  have hink := ink_ranges (Text.trimLeft rest')
  rw [Text.ink_trimLeft] at hink
  refine (frames_of_initialValue? hvalue).of_suffix
    (keyword ++ (signing ++ range ++ List.intercalate ", " names) ++
      (ranges (Text.trimLeft rest')).1.flatten) ⟨front, hfront.symm⟩ ?_ ?_
  · rw [ink_of_keyword? hkeyword, ink_of_vector? hvector, hink]
    simp only [ink_append, List.append_assoc]
  · exact ((unquoted_of_isKeyword (isKeyword_of_mem_signalKeywords _ hsignal.keyword)).append
      (((unquoted_optional hsignal.vector.signing isKeyword_of_mem_signings).append hrange).append
        (unquoted_names hsignal.vector.isName))).append (.flatten hdimensions)

/-- A parameter is its value, framed by the fields around it. -/
theorem frames_of_parameter? (h : parameter? code = some form)
    (hsides : ∀ side ∈ form.sides, Unquoted side) : Frames code form.value := by
  obtain ⟨⟨keyword, rest⟩, hkeyword, h⟩ := Option.bind_eq_some_iff.1 h
  obtain ⟨⟨modifiers, name, value, terminator⟩, hmodified, h⟩ := Option.bind_eq_some_iff.1 h
  obtain rfl := Option.some.inj h
  obtain ⟨hmem, -, behind, hcode, -, hrest⟩ := of_keyword? hkeyword
  obtain ⟨-, hname, t, hsuffix, hvalue, -⟩ := of_modified? Columns.standard hmodified
  have hfront : rest <:+ code := by
    rw [hcode, hrest]
    exact (List.dropWhile_suffix _).trans (List.suffix_append keyword behind)
  refine (frames_of_parameterValue? hvalue).of_suffix
    (keyword ++ (modifiers.flatten ++ name ++ "=")) (hsuffix.trans hfront) ?_ ?_
  · rw [ink_of_keyword? hkeyword, ink_of_modified? hmodified, ink_of_parameterValue? hvalue]
    simp only [ink_append, List.append_assoc]
  · exact (unquoted_of_isKeyword (isKeyword_of_mem_parameterKeywords _ hmem)).append
      (((Unquoted.flatten hsides).append (.of_isNamePart hname.forall_mem)).append (by decide))

/-- An assignment is its value, framed by the target and the semicolon. -/
theorem frames_of_assign? (h : assign? code = some form)
    (hsides : ∀ side ∈ form.sides, Unquoted side) : Frames code form.value := by
  obtain ⟨target, body, rfl, -, -, rfl⟩ := of_assign? h
  have htarget : Unquoted target :=
    (hsides _ List.mem_cons_self).of_ink (Text.ink_trim target).symm
  exact .append_left (by decide) (.append_left htarget (.append_left (t := [.char '=']) (by decide)
    ((Frames.trim body).append_right (by decide))))

/-- A connection is its value, framed by its name and the parentheses. -/
theorem frames_of_connection? (h : connection? code = some form) : Frames code form.value := by
  obtain ⟨name, gap, value, behind, rfl, hname, hgap, hterminator, rfl⟩ := of_connection? h
  have hbehind : Unquoted behind := by
    refine Unquoted.of_ink (t := Text.trimLeft behind) ?_ (Text.ink_trimLeft behind).symm
    rcases hterminator with hnil | hcomma
    · rw [hnil]
      decide
    · rw [hcomma]
      decide
  exact .append_left (t := [.char '.']) (by decide) (.append_left (.of_isNamePart hname.forall_mem)
    (.append_left (.of_allBlank hgap) (.append_left (t := [.char '(']) (by decide)
      ((Frames.trim value).append_right (.append (s := [.char ')']) (by decide) hbehind)))))

/-- A code is its value between two texts without quotes. -/
theorem frames_code (h : ofCode? code = some form) (hsides : ∀ side ∈ form.sides, Unquoted side) :
    Frames code form.value := by
  obtain ⟨hsafe, hport | ⟨-, hsignal | ⟨-, hparameter | ⟨-, hassign | ⟨-, hconnection⟩⟩⟩⟩⟩ :=
    of_ofCode? h
  · exact frames_of_port? hport hsides
  · exact frames_of_signal? hsignal hsafe hsides
  · exact frames_of_parameter? hparameter hsides
  · exact frames_of_assign? hassign hsides
  · exact frames_of_connection? hconnection

end

/-! ## Layouts -/

section
variable (columns : Columns) (inParameters : Bool) (indent : Nat)

/-- A range is written without quotes if it is read without. -/
theorem unquoted_writtenRange {range : Text} (h : Range.IsOptional range)
    (hrange : Unquoted range) : Unquoted (writtenRange columns range) :=
  hrange.of_ink (ink_writtenRange columns h)

/-- Modifiers are written without quotes if they are read without. -/
theorem unquoted_spacedModifiers {modifiers : List Text} (h : ∀ m ∈ modifiers, IsModifier m)
    (hmodifiers : ∀ m ∈ modifiers, Unquoted m) :
    Unquoted (spacedModifiers (modifiers.map (writtenModifier columns))) := by
  intro hmem
  obtain ⟨written, hwritten, hquote⟩ := List.mem_flatMap.1 hmem
  obtain ⟨modifier, hmodifier, rfl⟩ := List.mem_map.1 hwritten
  have hunquoted := (hmodifiers modifier hmodifier).of_ink
    (ink_writtenModifier columns (h modifier hmodifier))
  exact Unquoted.append (s := [.char ' ']) (by decide) hunquoted hquote

/-- A value is written whole, framed by its equals sign. -/
theorem frames_initialText (value : Option Text) : Frames (initialText value) (value.getD []) := by
  cases value with
  | none => exact .refl []
  | some value => exact .append_left (by decide) (.refl value)

/-- The line of a port holds no quotes. -/
theorem frames_layout_port {keyword net signing range terminator : Text} {names : List Text}
    (h : IsPort keyword net signing range names terminator) (hrange : Unquoted range) :
    Frames (layout columns indent inParameters (.port keyword net signing range names terminator))
      [] := by
  have hink := (ink_layout_port columns indent inParameters h.vector.range).trans
    (Text.ink_flatten (port keyword net signing range names terminator).fields).symm
  exact .of_unquoted ((unquoted_fields h hrange).of_ink hink)

/-- The line of a signal frames its value. -/
theorem frames_layout_signal {keyword signing range : Text} {names dimensions : List Text}
    {value : Option Text} (h : IsSignal keyword signing range names dimensions value)
    (hrange : Unquoted range) (hdimensions : ∀ dimension ∈ dimensions, Unquoted dimension) :
    Frames (layout columns indent inParameters
      (.signal keyword signing range names dimensions value)) (value.getD []) := by
  obtain ⟨b, c, d, e, n, -, hline⟩ := exists_layout_signal columns inParameters indent h
  have hkeyword := unquoted_of_isKeyword (isKeyword_of_mem_signalKeywords _ h.keyword)
  have hsigning := unquoted_optional h.vector.signing isKeyword_of_mem_signings
  have hwritten := unquoted_writtenRange columns h.vector.range hrange
  have hnames := unquoted_names h.vector.isName
  have hflat := (Unquoted.flatten hdimensions).of_ink (ink_dimensions columns dimensions)
  have hend :=
    (frames_initialText value).append_right (Unquoted.gapped (s := [.char ';']) (by decide) n)
  rw [hline]
  exact .append_left (.spaces _) (.append_left hkeyword (.append_left (hsigning.gapped b)
    (.append_left (hwritten.gapped c) (.append_left (.spaces d) (.append_left hnames
      (.append_left (hflat.gapped e) hend))))))

/-- The line of a parameter frames its value. -/
theorem frames_layout_parameter {keyword name value terminator : Text} {modifiers : List Text}
    (h : IsNamed keyword modifiers name) (hterminator : IsTerminator terminator)
    (hmodifiers : ∀ modifier ∈ modifiers, Unquoted modifier) :
    Frames (layout columns indent inParameters (.parameter keyword modifiers name value terminator))
      value := by
  have hkeyword := unquoted_of_isKeyword (isKeyword_of_mem_parameterKeywords _ h.keyword)
  have hwritten := unquoted_spacedModifiers columns h.isModifier hmodifiers
  have hname : Unquoted name := .of_isNamePart h.isName.forall_mem
  have hend := (unquoted_of_isTerminator hterminator).gapped
  by_cases hvalue : value = []
  · rw [hvalue]
    obtain ⟨b, n, -, hline⟩ :=
      @exists_layout_blank _ _ terminator _ columns inParameters indent h
    rw [hline]
    exact .of_unquoted ((Unquoted.spaces _).append (hkeyword.append (hwritten.append
      ((Unquoted.spaces b).append (hname.append (hend n))))))
  · obtain ⟨b, c, n, -, hline⟩ :=
      @exists_layout_parameter _ _ _ terminator _ columns inParameters indent h hvalue
    rw [hline]
    have hvalue := (Frames.refl value).append_right (hend n)
    exact .append_left (.spaces _) (.append_left hkeyword (.append_left hwritten
      (.append_left (.spaces b) (.append_left hname (.append_left (.spaces c)
        (.append_left (t := [.char '=', .char ' ']) (by decide) hvalue))))))

/-- The line of an assignment frames its value. -/
theorem frames_layout_assign {target : Text} (htarget : Unquoted target) (value : Text) :
    Frames (layout columns indent inParameters (.assign target value)) value := by
  obtain ⟨b, c, -, hline⟩ := exists_layout_assign columns inParameters indent target value
  rw [hline]
  exact .append_left (.spaces _) (.append_left (by decide) (.append_left (htarget.gapped b)
    (.append_left (.spaces c) (.append_left (t := [.char '=', .char ' ']) (by decide)
      ((Frames.refl value).append_right (by decide))))))

/-- The line of a connection frames its value. -/
theorem frames_layout_connection {name value terminator : Text} (hname : IsName name)
    (hterminator : Unquoted terminator) :
    Frames (layout columns indent inParameters (.connection name value terminator)) value := by
  obtain ⟨a, -, hline⟩ := exists_layout_connection columns inParameters indent name value terminator
  rw [hline]
  exact .append_left (.spaces _) (.append_left (t := [.char '.']) (by decide)
    (.append_left (.of_isNamePart hname.forall_mem) (.append_left (.spaces a)
      (.append_left (t := [.char '(']) (by decide)
        ((Frames.refl value).append_right (.append (s := [.char ')']) (by decide) hterminator))))))

/-- The line of a form is its value between two texts without quotes. -/
theorem frames_layout {code : Text} {form : LineForm} (hlast : Text.Stops Text.isBlank code.reverse)
    (h : ofCode? code = some form) (hsides : ∀ side ∈ form.sides, Unquoted side) :
    Frames (form.layout columns indent inParameters) form.value := by
  obtain ⟨hsafe, hport | ⟨-, hsignal | ⟨-, hparameter | ⟨-, hassign | ⟨-, hconnection⟩⟩⟩⟩⟩ :=
    of_ofCode? h
  · obtain ⟨_, _, _, _, _, _, rfl, hport, -⟩ := of_port? hport
    exact frames_layout_port columns inParameters indent hport (hsides _ List.mem_cons_self)
  · obtain ⟨_, _, _, _, _, _, rfl, hsignal, -⟩ := of_signal? hsignal hsafe
    obtain ⟨hrange, hdimensions⟩ := List.forall_mem_cons.1 hsides
    exact frames_layout_signal columns inParameters indent hsignal hrange hdimensions
  · obtain ⟨_, _, _, _, _, rfl, hnamed, -, hvalue⟩ := of_parameter? columns hlast hparameter
    have hterminator : IsTerminator _ :=
      hvalue.elim (fun h => .inr (.inr h.2.1)) fun h => h.1.isTerminator
    exact frames_layout_parameter columns inParameters indent hnamed hterminator hsides
  · obtain ⟨_, _, rfl, -, -, -⟩ := of_assign? hassign
    exact frames_layout_assign columns inParameters indent (hsides _ List.mem_cons_self) _
  · obtain ⟨_, _, _, _, rfl, hname, -, hterminator, -⟩ := of_connection? hconnection
    refine frames_layout_connection columns inParameters indent hname ?_
    rcases hterminator with hnil | hcomma
    · rw [hnil]
      decide
    · rw [hcomma]
      decide

end
end LineForm
end VerilogLayout

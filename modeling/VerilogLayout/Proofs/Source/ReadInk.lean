import VerilogLayout.Proofs.Procedural.Ink
import VerilogLayout.Proofs.Source.Connection

/-!
# Reading a line loses no ink

`LineForm.fields` are the texts of a form, in the order of the source. Each scanner splits its text
into what it reads and what is left, with nothing but blanks between them, so the ink of a code is
the ink of the fields of its form: `ink_of_ofCode?`. Above that theorem stands one lemma for each
reader.
-/

namespace VerilogLayout

open Text (ink ink_append ink_nil AllBlank)

namespace Text

theorem ink_trimLeft (s : Text) : ink (trimLeft s) = ink s :=
  ink_dropWhile (fun _ => id) s

theorem ink_trimRight (s : Text) : ink (trimRight s) = ink s :=
  ink_dropRightWhile (fun _ => id) s

/-- Trimming loses no ink. -/
theorem ink_trim (s : Text) : ink (trim s) = ink s := by
  rw [trim_eq, ink_trimRight, ink_trimLeft]

/-- A character that is no blank is ink. -/
theorem ink_cons {c : CodePoint} (h : isBlank c = false) (s : Text) :
    ink (c :: s) = c :: ink s := by
  rw [ink, List.filter_cons, if_pos (by rw [h]; rfl), ink]

/-- The ink of texts in a row is that of each of them. -/
theorem ink_flatten (texts : List Text) : ink texts.flatten = texts.flatMap ink := by
  induction texts with
  | nil => rfl
  | cons text texts ih => rw [List.flatten_cons, ink_append, ih, List.flatMap_cons]

end Text

namespace Scan

/-- A keyword that is read takes its ink away. -/
theorem ink_of_keyword? {keywords : List Text} {s word rest : Text}
    (h : keyword? keywords s = some (word, rest)) : ink s = ink word ++ ink rest := by
  obtain ⟨-, -, behind, rfl, -, rfl⟩ := of_keyword? h
  rw [ink_append, Text.ink_trimLeft]

/-- A name that is read takes its ink away. -/
theorem ink_of_name? {s name rest : Text} (h : name? s = some (name, rest)) :
    ink s = ink name ++ ink rest := by
  rw [← append_of_name? h, ink_append]

/-- A range that is read takes its ink away. -/
theorem ink_of_range? {s range rest : Text} (h : range? s = some (range, rest)) :
    ink s = ink range ++ ink rest := by
  rw [← append_of_range? h, ink_append]

/-- More names take their ink away, and that of the commas in front of them. -/
theorem ink_moreNames (s : Text) :
    ink s = ink ((moreNames s).1.flatMap ((", " : Text) ++ ·)) ++ ink (moreNames s).2 := by
  fun_induction moreNames s with
  | case1 s t hcomma name rest hname names rest' hrec ih =>
      rw [hrec] at ih
      have hcut : ink s = .char ',' :: ink t := by
        rw [← Text.ink_trimLeft, hcomma, Text.ink_cons rfl]
      have hpair : ink (", " : Text) = [.char ','] := rfl
      rw [hcut, ← Text.ink_trimLeft t, ink_of_name? hname, ih, List.flatMap_cons, ink_append,
        ink_append, hpair]
      simp only [List.append_assoc, List.cons_append, List.nil_append]
  | case2 s t hcomma hname => rfl
  | case3 s hcomma => rfl

/-- Names take away their ink and that of the commas between them. -/
theorem ink_of_names? {s rest : Text} {names : List Text} (h : names? s = some (names, rest)) :
    ink s = ink (List.intercalate ", " names) ++ ink rest := by
  rw [names?] at h
  split at h
  · next name behind hname =>
      obtain ⟨rfl, rfl⟩ := Prod.mk.inj (Option.some.inj h)
      rw [ink_of_name? hname, ink_moreNames behind, Text.intercalate_cons, ink_append,
        List.append_assoc]
  · cases h

/-- Ranges take their ink away. -/
theorem ink_ranges (s : Text) : ink s = ink (ranges s).1.flatten ++ ink (ranges s).2 := by
  fun_induction ranges s with
  | case1 s range rest hrange list rest' hrec ih =>
      rw [hrec] at ih
      rw [ink_of_range? hrange, ← Text.ink_trimLeft rest, ih, List.flatten_cons, ink_append,
        List.append_assoc]
  | case2 s hrange => rfl

end Scan

namespace LineForm

open Scan

/-- The fields of a form, in the order in which they stand on a line. -/
def fields : LineForm → List Text
  | .port keyword net signing range names terminator =>
      [keyword, net, signing, range, List.intercalate ", " names, terminator]
  | .signal keyword signing range names dimensions value =>
      [keyword, signing, range, List.intercalate ", " names, dimensions.flatten, initialText value,
        ";"]
  | .parameter keyword modifiers name value terminator =>
      [keyword, modifiers.flatten, name, "=", value, terminator]
  | .assign target value => ["assign", target, "=", value, ";"]
  | .connection name value terminator => [".", name, "(", value, ")", terminator]

/-! ## Parts of declarations -/

section
variable {s rest signing range terminator value : Text} {names : List Text}

/-- A range and names take their ink away. -/
theorem ink_of_rangeAndNames? (h : rangeAndNames? s = some (range, names, rest)) :
    ink s = ink (range ++ List.intercalate ", " names) ++ ink rest := by
  obtain ⟨⟨names', rest'⟩, hnames, heq⟩ := Option.map_eq_some_iff.1 h
  obtain ⟨hrange, heq⟩ := Prod.mk.inj heq
  obtain ⟨rfl, rfl⟩ := Prod.mk.inj heq
  have hrest := ink_of_names? hnames
  rw [Text.ink_trimLeft] at hrest
  rw [ink_append, List.append_assoc, ← hrest, ← hrange]
  cases hfound : range? s with
  | none => rfl
  | some found => exact ink_of_range? hfound

/-- A sign, a range and names take their ink away. -/
theorem ink_of_vector? (h : vector? s = some (signing, range, names, rest)) :
    ink s = ink (signing ++ range ++ List.intercalate ", " names) ++ ink rest := by
  rcases of_orElse h with h | ⟨-, h⟩
  · obtain ⟨⟨word, behind⟩, hkeyword, h⟩ := Option.bind_eq_some_iff.1 h
    obtain ⟨declared, hdeclared, h⟩ := Option.bind_eq_some_iff.1 h
    obtain ⟨rfl, rfl⟩ := Prod.mk.inj (Option.some.inj h)
    rw [ink_of_keyword? hkeyword, ink_of_rangeAndNames? hdeclared]
    simp only [ink_append, List.append_assoc]
  · obtain ⟨declared, hdeclared, heq⟩ := Option.map_eq_some_iff.1 h
    obtain ⟨rfl, rfl⟩ := Prod.mk.inj heq
    exact ink_of_rangeAndNames? hdeclared

/-- Nothing is left behind a terminator. -/
theorem ink_of_terminator? (h : terminator? s = some terminator) : ink s = ink terminator := by
  rw [← Text.ink_trimLeft]
  unfold terminator? at h
  split at h
  · next heq => rw [heq, ← Option.some.inj h]
  · next heq =>
      split at h
      · rw [heq, ← Option.some.inj h]
      · cases h
  · cases h

/-- Nothing is left behind a value and its semicolon. -/
theorem ink_of_initialValue? {value : Option Text} (h : initialValue? s = some value) :
    ink s = ink (initialText value ++ ";") := by
  rcases initialValue?_cases h with ⟨rfl, rfl⟩ | ⟨body, rfl, -, rfl⟩
  · rfl
  · have hequals : ink (" = " : Text) = [.char '='] := rfl
    rw [initialText, ink_append, ink_append, hequals, Text.ink_trim, Text.ink_cons rfl, ink_append]
    rfl

/-- All ink behind a name is in the value and its terminator. -/
theorem ink_of_parameterValue? (h : parameterValue? s = some (value, terminator)) :
    ink s = ink value ++ ink terminator := by
  rw [← Text.ink_trimLeft]
  cases readsValue_of_parameterValue? h with
  | blank htrim =>
      rw [htrim]
      rfl
  | ended _ htrim _ => rw [htrim, ← List.cons_append, ink_append, Text.ink_trimRight]
  | opened htrim _ _ => rw [htrim, ink_nil, List.append_nil]

/-- A name, an equals sign, a value and its terminator are all the ink. -/
theorem ink_of_namedValue? {name : Text} (h : namedValue? s = some (name, value, terminator)) :
    ink s = ink (name ++ "=" ++ value ++ terminator) := by
  obtain ⟨⟨found, rest⟩, hname, h⟩ := Option.bind_eq_some_iff.1 h
  dsimp only at h
  split at h
  · next t heq =>
      obtain ⟨⟨value', terminator'⟩, hvalue, heq'⟩ := Option.map_eq_some_iff.1 h
      obtain ⟨hfound, heq'⟩ := Prod.mk.inj heq'
      obtain ⟨rfl, rfl⟩ := Prod.mk.inj heq'
      have hequals : ink ("=" : Text) = [.char '='] := rfl
      rw [ink_of_name? hname, hfound, ← Text.ink_trimLeft rest, heq, Text.ink_cons rfl,
        ink_of_parameterValue? hvalue]
      simp only [ink_append, hequals, List.append_assoc, List.cons_append, List.nil_append]
  · cases h

/-- A modifier takes its ink away. -/
theorem ink_of_modifier? {modifier : Text} (h : modifier? s = some (modifier, rest)) :
    ink s = ink modifier ++ ink rest := by
  rcases of_orElse h with h | ⟨-, h⟩
  · exact ink_of_keyword? h
  · obtain ⟨⟨range, behind⟩, hrange, heq⟩ := Option.map_eq_some_iff.1 h
    obtain ⟨rfl, rfl⟩ := Prod.mk.inj heq
    rw [ink_of_range? hrange, Text.ink_trimLeft]

/-- Modifiers and a named value are all the ink. -/
theorem ink_of_modified? {fuel : Nat} {modifiers : List Text} {name : Text}
    (h : modified? fuel s = some (modifiers, name, value, terminator)) :
    ink s = ink (modifiers.flatten ++ (name ++ ("=" : Text) ++ value ++ terminator)) := by
  have hplain : ∀ {s modifiers}, (namedValue? s).map ([], ·) =
      some (modifiers, name, value, terminator) →
        ink s = ink (modifiers.flatten ++ (name ++ ("=" : Text) ++ value ++ terminator)) := by
    intro s modifiers h
    obtain ⟨named, hnamed, heq⟩ := Option.map_eq_some_iff.1 h
    obtain ⟨rfl, rfl⟩ := Prod.mk.inj heq
    exact ink_of_namedValue? hnamed
  induction fuel generalizing s modifiers with
  | zero => exact hplain h
  | succ fuel ih =>
      rcases of_orElse h with h | ⟨-, h⟩
      · obtain ⟨⟨modifier, rest⟩, hmodifier, h⟩ := Option.bind_eq_some_iff.1 h
        obtain ⟨⟨others, named⟩, hrec, h⟩ := Option.bind_eq_some_iff.1 h
        obtain ⟨rfl, rfl⟩ := Prod.mk.inj (Option.some.inj h)
        rw [ink_of_modifier? hmodifier, ih hrec, List.flatten_cons]
        simp only [ink_append, List.append_assoc]
      · exact hplain h

end

/-! ## The forms -/

section
variable {code : Text} {form : LineForm}

/-- All ink of a port is in its fields. -/
theorem ink_of_port? (h : port? code = some form) : ink code = form.fields.flatMap ink := by
  obtain ⟨⟨keyword, rest⟩, hkeyword, h⟩ := Option.bind_eq_some_iff.1 h
  rcases of_orElse h with h | ⟨-, h⟩
  · obtain ⟨⟨net, rest'⟩, hnet, h⟩ := Option.bind_eq_some_iff.1 h
    obtain ⟨⟨signing, range, names, rest''⟩, hvector, h⟩ := Option.bind_eq_some_iff.1 h
    obtain ⟨terminator, hterminator, h⟩ := Option.bind_eq_some_iff.1 h
    rw [← Option.some.inj h, ink_of_keyword? hkeyword, ink_of_keyword? hnet,
      ink_of_vector? hvector, ink_of_terminator? hterminator]
    simp [fields]
  · obtain ⟨⟨signing, range, names, rest'⟩, hvector, h⟩ := Option.bind_eq_some_iff.1 h
    obtain ⟨terminator, hterminator, h⟩ := Option.bind_eq_some_iff.1 h
    rw [← Option.some.inj h, ink_of_keyword? hkeyword, ink_of_vector? hvector,
      ink_of_terminator? hterminator]
    simp [fields]

/-- All ink of a signal is in its fields. -/
theorem ink_of_signal? (h : signal? code = some form) : ink code = form.fields.flatMap ink := by
  obtain ⟨⟨keyword, rest⟩, hkeyword, h⟩ := Option.bind_eq_some_iff.1 h
  obtain ⟨⟨signing, range, names, rest'⟩, hvector, h⟩ := Option.bind_eq_some_iff.1 h
  obtain ⟨value, hvalue, h⟩ := Option.bind_eq_some_iff.1 h
  have hdimensions := ink_ranges (Text.trimLeft rest')
  rw [Text.ink_trimLeft] at hdimensions
  rw [← Option.some.inj h, ink_of_keyword? hkeyword, ink_of_vector? hvector, hdimensions,
    ink_of_initialValue? hvalue]
  simp [fields]

/-- All ink of a parameter is in its fields. -/
theorem ink_of_parameter? (h : parameter? code = some form) :
    ink code = form.fields.flatMap ink := by
  obtain ⟨⟨keyword, rest⟩, hkeyword, h⟩ := Option.bind_eq_some_iff.1 h
  obtain ⟨⟨modifiers, name, value, terminator⟩, hmodified, h⟩ := Option.bind_eq_some_iff.1 h
  rw [← Option.some.inj h, ink_of_keyword? hkeyword, ink_of_modified? hmodified]
  simp only [fields, List.flatMap_cons, List.flatMap_nil, ink_append, List.append_assoc,
    List.append_nil]

/-- All ink of an assignment is in its fields. -/
theorem ink_of_assign? (h : assign? code = some form) : ink code = form.fields.flatMap ink := by
  obtain ⟨target, body, rfl, -, -, rfl⟩ := of_assign? h
  have hequals : ∀ s, ink (.char '=' :: s) = ink "=" ++ ink s := ink_append "="
  rw [ink_append, ink_append, hequals, ink_append]
  simp only [fields, List.flatMap_cons, List.flatMap_nil, Text.ink_trim, List.append_nil]
  rfl

/-- All ink of a connection is in its fields. -/
theorem ink_of_connection? (h : connection? code = some form) :
    ink code = form.fields.flatMap ink := by
  obtain ⟨name, gap, value, behind, rfl, -, hgap, -, rfl⟩ := of_connection? h
  have hpoint : ∀ s, ink (.char '.' :: s) = ink "." ++ ink s := ink_append "."
  have hopen : ∀ s, ink (.char '(' :: s) = ink "(" ++ ink s := ink_append "("
  have hclosing : ∀ s, ink (.char ')' :: s) = ink ")" ++ ink s := ink_append ")"
  rw [hpoint, ink_append, ink_append, Text.ink_eq_nil hgap, hopen, ink_append, hclosing]
  simp only [fields, List.flatMap_cons, List.flatMap_nil, Text.ink_trim, Text.ink_trimLeft,
    List.append_nil, List.nil_append]

/-- A code has the ink of the fields of its form. -/
theorem ink_of_ofCode? (h : ofCode? code = some form) : ink code = form.fields.flatMap ink := by
  obtain ⟨-, hport | ⟨-, hsignal | ⟨-, hparameter | ⟨-, hassign | ⟨-, hconnection⟩⟩⟩⟩⟩ :=
    of_ofCode? h
  · exact ink_of_port? hport
  · exact ink_of_signal? hsignal
  · exact ink_of_parameter? hparameter
  · exact ink_of_assign? hassign
  · exact ink_of_connection? hconnection

end
end LineForm
end VerilogLayout

import VerilogLayout.Proofs.Source.Scan
import VerilogLayout.Template.Header

/-!
# Printed headers

A `HeaderText` is the header of a module token by token, with the blanks between the tokens, and
`HeaderText.text` prints it. `HeaderText.WellFormed` says which pieces may stand at which place:
names are names, blanks are blanks, and in values and ranges brackets of each kind close one another
and commas stand inside of them. `HeaderText.header` is what the printed header declares.
-/

namespace VerilogLayout

open Text (AllBlank)

namespace Bracket

/-- `closesKind opening closing depth s` holds if `s` closes the `depth` brackets of one kind that
are open before it and every bracket of that kind of its own, and none that is not open. -/
def closesKind (opening closing : CodePoint) (depth : Nat) : Text → Bool
  | [] => depth = 0
  | c :: s =>
      if c = opening then closesKind opening closing (depth + 1) s
      else if c = closing then depth ≠ 0 && closesKind opening closing (depth - 1) s
      else closesKind opening closing depth s

/-- The brackets of each kind close one another. -/
structure IsPaired (s : Text) : Prop where
  parens : closesKind '(' ')' 0 s
  squares : closesKind '[' ']' 0 s
  braces : closesKind '\x7b' '\x7d' 0 s

/-- A part of an entry of a list: brackets of each kind close one another, and every comma is inside
of brackets. -/
structure IsEntryPart (s : Text) : Prop where
  paired : IsPaired s
  whole : Whole ',' 0 s

instance decidableWhole (separator : CodePoint) : (depth : Int) → (s : Text) →
    Decidable (Whole separator depth s)
  | _, [] => .isTrue trivial
  | depth, c :: s =>
      have := decidableWhole separator (depthAfter depth c) s
      inferInstanceAs (Decidable (_ ∧ _))

instance (s : Text) : Decidable (IsPaired s) :=
  decidable_of_iff (_ ∧ _ ∧ _) ⟨fun h => ⟨h.1, h.2.1, h.2.2⟩, fun h => ⟨h.1, h.2, h.3⟩⟩

instance (s : Text) : Decidable (IsEntryPart s) :=
  decidable_of_iff (_ ∧ _) ⟨fun h => ⟨h.1, h.2⟩, fun h => ⟨h.1, h.2⟩⟩

/-! ## Brackets side by side -/

section
variable {opening closing : CodePoint}

/-- Brackets that are open before a text may be closed behind it. -/
theorem closesKind_append {depth more : Nat} {s t : Text}
    (hs : closesKind opening closing depth s) (ht : closesKind opening closing more t) :
    closesKind opening closing (depth + more) (s ++ t) := by
  induction s generalizing depth with
  | nil =>
      obtain rfl : depth = 0 := of_decide_eq_true hs
      rwa [Nat.zero_add]
  | cons c s ih =>
      rw [closesKind] at hs
      rw [List.cons_append, closesKind]
      split
      · next hc =>
          rw [if_pos hc] at hs
          rw [Nat.add_right_comm]
          exact ih hs
      · next hc =>
          rw [if_neg hc] at hs
          split
          · next hc' =>
              rw [if_pos hc', Bool.and_eq_true, decide_eq_true_eq] at hs
              have hdepth : depth + more - 1 = depth - 1 + more := by omega
              rw [Bool.and_eq_true, decide_eq_true_eq, hdepth]
              exact ⟨by omega, ih hs.2⟩
          · next hc' =>
              rw [if_neg hc'] at hs
              exact ih hs

/-- A text without brackets of a kind closes them. -/
theorem closesKind_of_not_mem {s : Text} (hopening : opening ∉ s) (hclosing : closing ∉ s) :
    closesKind opening closing 0 s := by
  induction s with
  | nil => rfl
  | cons c s ih =>
      rw [List.mem_cons, not_or] at hopening hclosing
      rw [closesKind, if_neg (Ne.symm hopening.1), if_neg (Ne.symm hclosing.1)]
      exact ih hopening.2 hclosing.2

end

/-- Brackets of all kinds are counted together, so behind a text whose brackets of each kind are
closed the depth is that before it. No separator stands outside of brackets there if the text is
inside of one. -/
theorem depthBehind_of_closesKind {a b c : Nat} {s : Text} (hparens : closesKind '(' ')' a s)
    (hsquares : closesKind '[' ']' b s) (hbraces : closesKind '\x7b' '\x7d' c s) (depth : Int) :
    depthBehind (a + b + c + depth) s = depth ∧
      (0 < depth → Whole ',' (a + b + c + depth) s) := by
  induction s generalizing a b c with
  | nil =>
      obtain rfl : a = 0 := of_decide_eq_true hparens
      obtain rfl : b = 0 := of_decide_eq_true hsquares
      obtain rfl : c = 0 := of_decide_eq_true hbraces
      exact ⟨by simp [depthBehind], fun _ => trivial⟩
  | cons d s ih =>
      -- A bracket moves one of the three depths, and any other character none of them.
      have hstep : ∃ a' b' c' : Nat, closesKind '(' ')' a' s ∧ closesKind '[' ']' b' s ∧
          closesKind '\x7b' '\x7d' c' s ∧
          depthAfter (a + b + c + depth) d = a' + b' + c' + depth := by
        simp only [closesKind] at hparens hsquares hbraces
        by_cases hd : d ∈ [.char '(', .char ')', .char '[', .char ']', .char '\x7b', .char '\x7d']
        · simp only [List.mem_cons, List.not_mem_nil, or_false] at hd
          rcases hd with rfl | rfl | rfl | rfl | rfl | rfl
          · exact ⟨a + 1, b, c, hparens, hsquares, hbraces, by simp [depthAfter, isOpening]; omega⟩
          · simp at hparens
            exact ⟨a - 1, b, c, hparens.2, hsquares, hbraces,
              by simp [depthAfter, isOpening, isClosing]; omega⟩
          · exact ⟨a, b + 1, c, hparens, hsquares, hbraces, by simp [depthAfter, isOpening]; omega⟩
          · simp at hsquares
            exact ⟨a, b - 1, c, hparens, hsquares.2, hbraces,
              by simp [depthAfter, isOpening, isClosing]; omega⟩
          · exact ⟨a, b, c + 1, hparens, hsquares, hbraces, by simp [depthAfter, isOpening]; omega⟩
          · simp at hbraces
            exact ⟨a, b, c - 1, hparens, hsquares, hbraces.2,
              by simp [depthAfter, isOpening, isClosing]; omega⟩
        · simp only [List.mem_cons, List.not_mem_nil, or_false, not_or] at hd
          obtain ⟨h1, h2, h3, h4, h5, h6⟩ := hd
          simp only [h1, h2, h3, h4, h5, h6, if_false] at hparens hsquares hbraces
          exact ⟨a, b, c, hparens, hsquares, hbraces,
            by simp [depthAfter, isOpening, isClosing, h1, h2, h3, h4, h5, h6]⟩
      obtain ⟨a', b', c', hparens', hsquares', hbraces', hdepth⟩ := hstep
      obtain ⟨hbehind, hwhole⟩ := ih hparens' hsquares' hbraces'
      refine ⟨?_, fun hpos => ⟨fun hboth => ?_, ?_⟩⟩
      · show depthBehind (depthAfter _ d) s = depth
        rw [hdepth, hbehind]
      · omega
      · rw [hdepth]
        exact hwhole hpos

/-! ## Parts of an entry -/

/-- The brackets and the comma. -/
def marks : Text :=
  [.char ',', .char '(', .char ')', .char '[', .char ']', .char '\x7b', .char '\x7d']

/-- Brackets that close one another leave the depth as it is, and hide every comma if they stand
inside of one themselves. -/
theorem IsPaired.depthBehind {s : Text} (h : IsPaired s) (depth : Int) :
    depthBehind depth s = depth ∧ (0 < depth → Whole ',' depth s) := by
  simpa using depthBehind_of_closesKind h.parens h.squares h.braces depth

theorem IsPaired.append {s t : Text} (hs : IsPaired s) (ht : IsPaired t) : IsPaired (s ++ t) :=
  ⟨closesKind_append hs.parens ht.parens, closesKind_append hs.squares ht.squares,
    closesKind_append hs.braces ht.braces⟩

/-- A text without the separator is whole. -/
theorem whole_of_not_mem {separator : CodePoint} {s : Text} (h : separator ∉ s) (depth : Int) :
    Whole separator depth s := by
  induction s generalizing depth with
  | nil => trivial
  | cons c s ih =>
      rw [List.mem_cons, not_or] at h
      exact ⟨fun hboth => h.1 hboth.1.symm, ih h.2 (depthAfter depth c)⟩

namespace IsEntryPart

variable {s t : Text}

theorem append (hs : IsEntryPart s) (ht : IsEntryPart t) : IsEntryPart (s ++ t) := by
  refine ⟨hs.paired.append ht.paired, (whole_append 0 s t).2 ⟨hs.whole, ?_⟩⟩
  rw [(hs.paired.depthBehind 0).1]
  exact ht.whole

theorem of_not_mem (h : ∀ c ∈ s, c ∉ marks) : IsEntryPart s := by
  have hnot : ∀ d ∈ marks, d ∉ s := fun d hd hs => h d hs hd
  refine ⟨⟨?_, ?_, ?_⟩, whole_of_not_mem (hnot _ (by decide)) 0⟩
  all_goals exact closesKind_of_not_mem (hnot _ (by decide)) (hnot _ (by decide))

/-- A class of characters without brackets and commas. -/
theorem of_class {p : CodePoint → Bool} (hp : ∀ d ∈ marks, p d = false) (h : ∀ c ∈ s, p c) :
    IsEntryPart s := by
  refine of_not_mem fun c hc hmark => ?_
  have htrue := h c hc
  rw [hp c hmark] at htrue
  cases htrue

/-- Blanks are part of one entry. -/
theorem of_allBlank (h : AllBlank s) : IsEntryPart s :=
  of_class (by decide) h

/-- A name is part of one entry. -/
theorem of_isName (h : Scan.IsName s) : IsEntryPart s :=
  of_class (by decide) h.forall_mem

/-- A range hides the commas that stand inside. -/
theorem square (h : IsPaired s) : IsEntryPart (.char '[' :: (s ++ [.char ']'])) := by
  have hopen : closesKind '[' ']' (0 + 1) (s ++ [.char ']']) := closesKind_append h.squares rfl
  have hparens : closesKind '(' ')' (0 + 0) (s ++ [.char ']']) := closesKind_append h.parens rfl
  have hbraces : closesKind '\x7b' '\x7d' (0 + 0) (s ++ [.char ']']) :=
    closesKind_append h.braces rfl
  have hinside := h.depthBehind 1
  refine ⟨⟨hparens, hopen, hbraces⟩, by simp,
    (whole_append 1 s [.char ']']).2 ⟨hinside.2 (by simp), ?_⟩⟩
  rw [hinside.1]
  exact ⟨by simp, trivial⟩

end IsEntryPart

/-- Behind a part of a text fewer brackets may be open. -/
theorem exists_closesKind {opening closing : CodePoint} {depth : Nat} {s t : Text}
    (h : closesKind opening closing depth (s ++ t)) :
    ∃ more, closesKind opening closing more t := by
  induction s generalizing depth with
  | nil => exact ⟨depth, h⟩
  | cons c s ih =>
      rw [List.cons_append, closesKind] at h
      split at h
      · exact ih h
      · split at h
        · exact ih (Bool.and_eq_true_iff.1 h).2
        · exact ih h

/-- A bracket that is open is closed in the text. -/
theorem closing_mem {opening closing : CodePoint} {depth : Nat} {s : Text} (hdepth : 0 < depth)
    (h : closesKind opening closing depth s) : closing ∈ s := by
  induction s generalizing depth with
  | nil => exact absurd (of_decide_eq_true h) (Nat.ne_of_gt hdepth)
  | cons c s ih =>
      rw [closesKind] at h
      split at h
      · exact List.mem_cons_of_mem c (ih (Nat.succ_pos depth) h)
      · split at h
        · next hc => exact hc ▸ List.mem_cons_self
        · exact List.mem_cons_of_mem c (ih hdepth h)

end Bracket

/-! ## Entries -/

/-- A word or a range in front of a declared name, with the blanks behind it. -/
inductive LeadPart where
  | word (name gap : Text)
  | range (body gap : Text)
deriving DecidableEq, Repr

namespace LeadPart

/-- The parts of a lead one behind the other. -/
def print : List LeadPart → Text
  | [] => []
  | .word name gap :: rest => name ++ (gap ++ print rest)
  | .range body gap :: rest => .char '[' :: (body ++ .char ']' :: (gap ++ print rest))

/-- The parts of a lead are well formed, and a blank stands between a word and the word or the name
behind it. -/
def AreLead : List LeadPart → Prop
  | [] => True
  | .word name gap :: rest =>
      Scan.IsName name ∧ AllBlank gap ∧ (gap ≠ [] ∨ (print rest).head? = some (.char '[')) ∧
        AreLead rest
  | .range body gap :: rest => Bracket.IsPaired body ∧ AllBlank gap ∧ AreLead rest

instance decidableAreLead : (lead : List LeadPart) → Decidable (AreLead lead)
  | [] => .isTrue trivial
  | .word _ _ :: rest =>
      have := decidableAreLead rest
      inferInstanceAs (Decidable (_ ∧ _))
  | .range _ _ :: rest =>
      have := decidableAreLead rest
      inferInstanceAs (Decidable (_ ∧ _))

end LeadPart

/-- The entry of a parameter: `parameter`, a lead, the name and, behind the equals sign, the
value. -/
structure ParameterText where
  /-- The blanks in front, and those behind the keyword and behind the name. -/
  before : Text
  gap : Text
  behind : Text
  lead : List LeadPart
  name : Text
  value : Text
deriving DecidableEq, Repr

namespace ParameterText

/-- The entry behind its keyword. -/
def declared (p : ParameterText) : Text :=
  LeadPart.print p.lead ++ (p.name ++ (p.behind ++ .char '=' :: p.value))

/-- The entry as it is printed. -/
def text (p : ParameterText) : Text :=
  p.before ++ (("parameter" : Text) ++ (p.gap ++ p.declared))

/-- The ranges of the type hold no equals sign, and the value is not blank. -/
structure WellFormed (p : ParameterText) : Prop where
  before : AllBlank p.before
  gap : AllBlank p.gap
  behind : AllBlank p.behind
  separate : p.gap ≠ [] ∨ (LeadPart.print p.lead).head? = some (.char '[')
  lead : LeadPart.AreLead p.lead
  noSign : .char '=' ∉ LeadPart.print p.lead
  name : Scan.IsName p.name
  value : Bracket.IsEntryPart p.value
  notBlank : ¬ AllBlank p.value

instance (p : ParameterText) : Decidable p.WellFormed :=
  decidable_of_iff (_ ∧ _ ∧ _ ∧ _ ∧ _ ∧ _ ∧ _ ∧ _ ∧ _)
    ⟨fun ⟨h₁, h₂, h₃, h₄, h₅, h₆, h₇, h₈, h₉⟩ => ⟨h₁, h₂, h₃, h₄, h₅, h₆, h₇, h₈, h₉⟩,
      fun ⟨h₁, h₂, h₃, h₄, h₅, h₆, h₇, h₈, h₉⟩ => ⟨h₁, h₂, h₃, h₄, h₅, h₆, h₇, h₈, h₉⟩⟩

/-- The name and the value with single spaces between its words. -/
def entry (p : ParameterText) : Text × Text :=
  (p.name, List.intercalate " " (Text.words p.value))

end ParameterText

/-- The entry of a port: a lead, the name, and either dimensions or an initial value. -/
structure PortText where
  /-- The blanks in front, and those behind the name and its dimensions. -/
  before : Text
  behind : Text
  lead : List LeadPart
  name : Text
  /-- What stands inside the dimensions behind the name, each with the blanks in front of it. -/
  dimensions : List (Text × Text)
  initial : Option Text
deriving DecidableEq, Repr

namespace PortText

/-- The dimensions one behind the other. -/
def printDimensions : List (Text × Text) → Text
  | [] => []
  | (gap, body) :: rest => gap ++ .char '[' :: (body ++ .char ']' :: printDimensions rest)

/-- The equals sign and the value behind it. -/
def printInitial : Option Text → Text
  | none => []
  | some value => .char '=' :: value

/-- The entry as it is printed. -/
def text (p : PortText) : Text :=
  p.before ++ (LeadPart.print p.lead ++ (p.name ++ (printDimensions p.dimensions ++
    (p.behind ++ printInitial p.initial))))

/-- No square brackets stand inside a dimension, and only a port without dimensions has an initial
value. -/
structure WellFormed (p : PortText) : Prop where
  before : AllBlank p.before
  behind : AllBlank p.behind
  lead : LeadPart.AreLead p.lead
  name : Scan.IsName p.name
  dimensions : ∀ d ∈ p.dimensions,
    AllBlank d.1 ∧ (∀ c ∈ d.2, Scan.isSquare c = false) ∧ Bracket.IsPaired d.2
  initial : ∀ value ∈ p.initial,
    Bracket.IsEntryPart value ∧ ¬ AllBlank value ∧ p.dimensions = []

instance (p : PortText) : Decidable p.WellFormed :=
  decidable_of_iff (_ ∧ _ ∧ _ ∧ _ ∧ _ ∧ _)
    ⟨fun ⟨h₁, h₂, h₃, h₄, h₅, h₆⟩ => ⟨h₁, h₂, h₃, h₄, h₅, h₆⟩,
      fun ⟨h₁, h₂, h₃, h₄, h₅, h₆⟩ => ⟨h₁, h₂, h₃, h₄, h₅, h₆⟩⟩

/-- The port without its initial value. -/
def bare (p : PortText) : PortText :=
  { p with initial := none }

end PortText

/-! ## Headers -/

/-- The entries of a list with commas between them; a list without entries holds `blank`. -/
def printList (blank : Text) (entries : List Text) : Text :=
  if entries.isEmpty then blank else List.intercalate "," entries

/-- The list of parameters behind the sign for it. -/
structure ParameterList where
  /-- The blanks before and behind the sign, and those in a list without entries. -/
  before : Text
  behind : Text
  blank : Text
  entries : List ParameterText
deriving DecidableEq, Repr

namespace ParameterList

/-- The list as it is printed. -/
def text (l : ParameterList) : Text :=
  l.before ++ .char '#' ::
    (l.behind ++ .char '(' :: (printList l.blank (l.entries.map ParameterText.text) ++
    (")" : Text)))

structure WellFormed (l : ParameterList) : Prop where
  before : AllBlank l.before
  behind : AllBlank l.behind
  blank : AllBlank l.blank
  entries : ∀ p ∈ l.entries, p.WellFormed

instance (l : ParameterList) : Decidable l.WellFormed :=
  decidable_of_iff (_ ∧ _ ∧ _ ∧ _)
    ⟨fun ⟨h₁, h₂, h₃, h₄⟩ => ⟨h₁, h₂, h₃, h₄⟩, fun ⟨h₁, h₂, h₃, h₄⟩ => ⟨h₁, h₂, h₃, h₄⟩⟩

end ParameterList

/-- The header of a module, token by token. -/
structure HeaderText where
  /-- The blanks in front, behind the keyword, before the ports, and those in a list without
  ports. -/
  before : Text
  gap : Text
  beforePorts : Text
  blank : Text
  name : Text
  parameters : Option ParameterList
  ports : List PortText
deriving DecidableEq, Repr

namespace HeaderText

/-- The entries of the list of parameters, if there is one. -/
def parameterTexts (h : HeaderText) : List ParameterText :=
  (h.parameters.map ParameterList.entries).getD []

/-- The list of parameters as it is printed, if there is one. -/
def printParameters (h : HeaderText) : Text :=
  (h.parameters.map ParameterList.text).getD []

/-- The header as it is printed. -/
def text (h : HeaderText) : Text :=
  h.before ++ (("module" : Text) ++ (h.gap ++ (h.name ++ (h.printParameters ++
    (h.beforePorts ++ .char '(' :: (printList h.blank (h.ports.map PortText.text) ++
      (")" : Text)))))))

/-- The pieces of a header are well formed, and its name does not touch the keyword. -/
structure WellFormed (h : HeaderText) : Prop where
  before : AllBlank h.before
  gap : AllBlank h.gap
  separate : h.gap ≠ []
  beforePorts : AllBlank h.beforePorts
  blank : AllBlank h.blank
  name : Scan.IsName h.name
  parameters : ∀ l ∈ h.parameters, l.WellFormed
  ports : ∀ p ∈ h.ports, p.WellFormed

instance (h : HeaderText) : Decidable h.WellFormed :=
  decidable_of_iff (_ ∧ _ ∧ _ ∧ _ ∧ _ ∧ _ ∧ _ ∧ _)
    ⟨fun ⟨h₁, h₂, h₃, h₄, h₅, h₆, h₇, h₈⟩ => ⟨h₁, h₂, h₃, h₄, h₅, h₆, h₇, h₈⟩,
      fun ⟨h₁, h₂, h₃, h₄, h₅, h₆, h₇, h₈⟩ => ⟨h₁, h₂, h₃, h₄, h₅, h₆, h₇, h₈⟩⟩

/-- What the header declares. -/
def header (h : HeaderText) : ModuleHeader where
  name := h.name
  parameters := h.parameterTexts.map ParameterText.entry
  ports := h.ports.map PortText.name

/-- The header without the initial values of its ports. -/
def bare (h : HeaderText) : HeaderText :=
  { h with ports := h.ports.map PortText.bare }

end HeaderText
end VerilogLayout

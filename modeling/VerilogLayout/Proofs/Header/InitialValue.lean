import VerilogLayout.Proofs.Header.Whole

/-!
# Initial values of ports

The name of a port is looked for in all of its entry, so the last name of an initial value is taken
for the port's. `ofSource?_initialised` compares a header with the one whose initial values are
removed: nothing else can differ, and nothing does if each value that has a name ends with the name
of its port. Removing the values makes no comment, since a comma or a parenthesis stands behind.
-/

namespace VerilogLayout

namespace Text

variable {α : Type} {b : CodePoint}

/-- The signs of a comment stand on one side of another character. -/
theorem includes_append_cons {c : CodePoint} (hc : c ≠ '/') (hb : c ≠ b) (s t : Text) :
    includes (s ++ c :: t) [.char '/', b] =
      (includes s [.char '/', b] || includes t [.char '/', b]) := by
  have hhead : (c :: t).head? ≠ some b := fun heq => hb (Option.some.inj heq)
  have hpair : ¬ (c = '/' ∧ t.head? = some b) := fun hboth => hc hboth.1
  rw [includes_append (.inr hhead), includes_cons, decide_eq_false hpair, Bool.false_or]

/-- Shorter entries hold no sign of a comment that the entries of a list do not hold. -/
theorem includes_join_of_isPrefix (hcomma : ',' ≠ b) (hclosing : ')' ≠ b) {full part : α → Text}
    (hpart : ∀ x, part x <+: full x) {list : List α} (t : Text)
    (h : includes (List.intercalate "," (list.map full) ++ .char ')' :: t) [.char '/', b] = false) :
    includes (List.intercalate "," (list.map part) ++ .char ')' :: t) [.char '/', b] = false := by
  have hentry : ∀ x, includes (full x) [.char '/', b] = false →
      includes (part x) [.char '/', b] = false :=
    fun x hx => includes_eq_false_of_infix hx (hpart x).isInfix
  induction list with
  | nil => exact h
  | cons x rest ih =>
      cases rest with
      | nil =>
          simp only [List.map_cons, List.map_nil, List.intercalate_singleton] at h ⊢
          rw [includes_append_cons (by decide) hclosing, Bool.or_eq_false_iff] at h ⊢
          exact ⟨hentry x h.1, h.2⟩
      | cons next others =>
          have hsplit : ∀ f : α → Text,
              List.intercalate "," ((x :: next :: others).map f) ++ .char ')' :: t =
                f x ++ .char ',' ::
                  (List.intercalate "," ((next :: others).map f) ++ .char ')' :: t) := by
            intro f
            rw [List.map_cons, List.map_cons, List.intercalate_cons_cons]
            simp
          rw [hsplit, includes_append_cons (by decide) hcomma, Bool.or_eq_false_iff] at h ⊢
          exact ⟨hentry x h.1, ih h.2⟩

end Text

namespace PortText

/-- The printed port starts with the one without its initial value. -/
theorem isPrefix_bare (p : PortText) : p.bare.text <+: p.text := by
  refine ⟨printInitial p.initial, ?_⟩
  simp [text, bare, printInitial]

/-- A well-formed port without its value is well-formed. -/
theorem WellFormed.bare {p : PortText} (h : p.WellFormed) : p.bare.WellFormed :=
  ⟨h.before, h.behind, h.lead, h.name, h.dimensions, nofun⟩

/-- The declared name is read unless the initial value ends with another one. -/
theorem found_eq_name {p : PortText} : p.found = p.name ↔ ∀ value ∈ p.initial,
    ∀ name ∈ (ModuleHeader.namesIn (ModuleHeader.withoutDimensions
      (Text.trimRight value))).getLast?, name = p.name := by
  rw [found]
  cases hinitial : p.initial with
  | none => exact iff_of_true rfl fun value hvalue => absurd hvalue (Option.not_mem_none value)
  | some value =>
      have hread : ∀ last : Option Text,
          last.getD p.name = p.name ↔ ∀ name ∈ last, name = p.name := by
        intro last
        cases last <;> simp
      exact (hread _).trans ⟨fun hlast other heq => Option.some.inj heq ▸ hlast,
        fun hall => hall value rfl⟩

end PortText

namespace HeaderText

variable {h : HeaderText}

/-- A well-formed header without the values of its ports is well-formed. -/
theorem WellFormed.bare (hwell : h.WellFormed) : h.bare.WellFormed := by
  refine ⟨hwell.before, hwell.gap, hwell.separate, hwell.beforePorts, hwell.blank, hwell.name,
    hwell.parameters, fun p hp => ?_⟩
  obtain ⟨port, hport, rfl⟩ := List.mem_map.1 hp
  exact (hwell.ports port hport).bare

/-- Without its initial values a header declares the same, and its ports are read as declared. -/
theorem header_bare (h : HeaderText) : h.bare.header = h.header ∧
    h.bare.ports.map PortText.found = h.ports.map PortText.name := by
  constructor
  · rw [header, header, bare, List.map_map]
    rfl
  · rw [bare, List.map_map]
    rfl

/-- Removing initial values makes no comment. -/
theorem includes_bare {b : CodePoint} (hcomma : ',' ≠ b) (hclosing : ')' ≠ b) (hopening : '(' ≠ b)
    {after : Text} (hnone : Text.includes (h.text ++ after) [.char '/', b] = false) :
    Text.includes (h.bare.text ++ after) [.char '/', b] = false := by
  have hsplit : ∀ g : HeaderText, g.text ++ after =
      g.before ++ (("module" : Text) ++ (g.gap ++ (g.name ++ (g.printParameters ++
        g.beforePorts)))) ++ .char '(' :: (printList g.blank (g.ports.map PortText.text) ++
          .char ')' :: after) := by
    intro g
    simp [text]
  have hmap : h.bare.ports.map PortText.text = h.ports.map fun p => p.bare.text := List.map_map
  rw [hsplit, Text.includes_append_cons (by decide) hopening, Bool.or_eq_false_iff] at hnone ⊢
  refine ⟨hnone.1, ?_⟩
  rw [hmap]
  have hports := hnone.2
  cases hlist : h.ports with
  | nil =>
      rw [hlist] at hports
      exact hports
  | cons p rest =>
      rw [hlist] at hports
      exact Text.includes_join_of_isPrefix hcomma hclosing PortText.isPrefix_bare after hports

end HeaderText

open ModuleHeader in
/-- A printed header with initial values against the one without them. -/
theorem ofSource?_initialised {h : HeaderText} (hwell : h.WellFormed) {after : Text}
    (hline : Text.includes (h.text ++ after) "//" = false)
    (hblock : Text.includes (h.text ++ after) "/*" = false) :
    ofSource? (h.bare.text ++ after) = .ok h.header ∧
      ofSource? (h.text ++ after) =
        .ok { h.header with ports := h.ports.map PortText.found } ∧
      (ofSource? (h.text ++ after) = ofSource? (h.bare.text ++ after) ↔
        ∀ p ∈ h.ports, ∀ value ∈ p.initial,
          ∀ name ∈ (namesIn (withoutDimensions (Text.trimRight value))).getLast?,
            name = p.name) := by
  obtain ⟨hheader, hbarePorts⟩ := HeaderText.header_bare h
  have hbare : ofSource? (h.bare.text ++ after) = .ok h.header := by
    rw [ofSource?_text hwell.bare
      (HeaderText.includes_bare (by decide) (by decide) (by decide) hline)
      (HeaderText.includes_bare (by decide) (by decide) (by decide) hblock), hheader, hbarePorts]
    rfl
  have hread := ofSource?_text hwell hline hblock
  have hports : (∀ p ∈ h.ports, p.found = p.name) ↔ ∀ p ∈ h.ports, ∀ value ∈ p.initial,
      ∀ name ∈ (namesIn (withoutDimensions (Text.trimRight value))).getLast?, name = p.name :=
    forall₂_congr fun p _ => PortText.found_eq_name
  refine ⟨hbare, hread, ?_⟩
  rw [hbare, hread, ← hports]
  constructor
  · intro heq
    have hlist : h.ports.map PortText.found = h.ports.map PortText.name :=
      congrArg ports (Except.ok.inj heq)
    exact List.map_inj_left.1 hlist
  · intro hall
    rw [List.map_congr_left hall]
    rfl

/-- A header with one port, which has a sized number as its initial value. -/
def flag : HeaderText where
  before := []
  gap := " "
  beforePorts := " "
  blank := []
  name := "m"
  parameters := none
  ports := [
    { before := []
      behind := " "
      lead := [.word "output" " ", .word "reg" " "]
      name := "q"
      dimensions := []
      initial := some (" 1'b0" : Text) }]

/-- The base of a number is taken for the name of the port. -/
theorem ofSource?_flag :
    flag.text ++ ("; endmodule" : Text) = ("module m (output reg q = 1'b0); endmodule" : Text) ∧
    ModuleHeader.ofSource? (flag.text ++ ("; endmodule" : Text)) =
      .ok { name := "m", parameters := [], ports := ["b0"] } ∧
    ModuleHeader.ofSource? (flag.bare.text ++ ("; endmodule" : Text)) =
      .ok { name := "m", parameters := [], ports := ["q"] } := by
  have hline : Text.includes (flag.text ++ ("; endmodule" : Text)) "//" = false := by
    decide +kernel
  have hblock : Text.includes (flag.text ++ ("; endmodule" : Text)) "/*" = false := by
    decide +kernel
  obtain ⟨hbare, hread, -⟩ := ofSource?_initialised (h := flag) (by decide) hline hblock
  have hfound : flag.ports.map PortText.found = [("b0" : Text)] := by
    decide +kernel
  exact ⟨by decide, hread.trans (by rw [hfound]; rfl), hbare⟩

end VerilogLayout

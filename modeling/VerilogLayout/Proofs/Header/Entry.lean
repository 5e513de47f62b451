import VerilogLayout.Proofs.Header.Printed

/-!
# Reading one entry

A port is the last name in front of the ranges at the end of its entry, and a parameter the first
name with an equals sign behind it. Both are searched for character by character, so what stands in
front matters only where it ends: `name?_append_of_stops` says that a text which ends outside of a
name is read as it stands whatever follows it, and `withoutDimensions_append` the same of a text
whose ranges are closed and which does not end with one. `parameter?_text` and `port?_text` read a
printed entry; `PortText.found` is the name that is read, which an initial value can displace.
-/

namespace VerilogLayout

open Text (AllBlank Stops Ends IsTight)

/-! ## The end of a text -/

namespace Text

variable {p : CodePoint → Bool} {s t : Text}

/-- A text ends as the part does that stands last and is not empty. -/
theorem stops_reverse_append (ht : Stops p t.reverse) (h : t ≠ [] ∨ Stops p s.reverse) :
    Stops p (s ++ t).reverse := by
  rw [List.reverse_append]
  rcases h with hne | hs
  · exact stops_append_of_ne_nil (List.reverse_ne_nil_iff.2 hne) ht s.reverse
  · exact stops_append ht hs

/-- A text ends as its last part does, if that is not empty. -/
theorem ends_of_append (h : Ends p (s ++ t)) (hne : t ≠ []) : Ends p t := by
  have hstops := h.stops
  rw [List.reverse_append] at hstops
  exact ends_of_stops hne hstops.left

end Text

namespace Scan

/-- Blanks are outside of names. -/
theorem stops_of_allBlank {gap : Text} (h : AllBlank gap) : Stops isNamePart gap := by
  intro c hc
  rw [Bool.eq_false_iff]
  intro hpart
  have hblank := h c (List.mem_of_mem_head? hc)
  rw [isBlank_eq_false hpart] at hblank
  cases hblank

/-- A text with a name in front starts with a character of names. -/
theorem IsName.isNamePart_head {name rest : Text} (h : IsName name) {c : CodePoint}
    (hc : (name ++ rest).head? = some c) : isNamePart c := by
  obtain ⟨d, s, rfl⟩ := List.exists_cons_of_ne_nil h.ne_nil
  obtain rfl := Option.some.inj hc
  exact h.forall_mem d List.mem_cons_self

/-- A text that does not end inside of a name is scanned as it stands, whatever follows it. -/
theorem name?_append_of_stops {s : Text} (hne : s ≠ []) (hlast : Stops isNamePart s.reverse)
    (t : Text) : name? (s ++ t) = (name? s).map fun found => (found.1, found.2 ++ t) := by
  obtain ⟨c, s, rfl⟩ := List.exists_cons_of_ne_nil hne
  cases hscan : name? (c :: s) with
  | none =>
      rw [name?] at hscan
      split at hscan
      · cases hscan
      · next hstart => exact if_neg hstart
  | some found =>
      obtain ⟨name, rest⟩ := found
      have hname := isName_of_name? hscan
      have hstops : Stops isNamePart rest := by
        rw [name?] at hscan
        split at hscan
        · obtain ⟨-, rfl⟩ := Prod.mk.inj (Option.some.inj hscan)
          exact Text.stops_dropWhile s
        · cases hscan
      -- The name would reach to the end of the text if nothing stood behind it.
      have hrest : rest ≠ [] := by
        rintro rfl
        have hall := append_of_name? hscan
        rw [List.append_nil] at hall
        rw [← hall] at hlast
        obtain ⟨d, hd, hpart⟩ := Text.ends_of_stops hname.ne_nil hlast
        rw [hname.forall_mem d (List.mem_of_mem_getLast? hd)] at hpart
        cases hpart
      rw [← append_of_name? hscan, List.append_assoc,
        name?_append hname (Text.stops_append_of_ne_nil hrest hstops t)]
      rfl

end Scan

/-! ## Leads -/

namespace LeadPart

/-- A lead is a part of an entry. -/
theorem isEntryPart_print {lead : List LeadPart} (h : AreLead lead) :
    Bracket.IsEntryPart (print lead) := by
  induction lead with
  | nil => exact .of_allBlank Text.allBlank_nil
  | cons part rest ih =>
      cases part with
      | word name gap =>
          obtain ⟨hname, hgap, -, hrest⟩ := h
          exact (Bracket.IsEntryPart.of_isName hname).append
            ((Bracket.IsEntryPart.of_allBlank hgap).append (ih hrest))
      | range body gap =>
          obtain ⟨hbody, hgap, hrest⟩ := h
          have hpart := (Bracket.IsEntryPart.square hbody).append
            ((Bracket.IsEntryPart.of_allBlank hgap).append (ih hrest))
          simpa [print] using hpart

/-- A lead does not end inside of a name. -/
theorem stops_reverse_print {lead : List LeadPart} (h : AreLead lead) :
    Stops Scan.isNamePart (print lead).reverse := by
  have hblank : ∀ {gap : Text}, AllBlank gap → Stops Scan.isNamePart gap.reverse :=
    fun hgap => Scan.stops_of_allBlank fun c hc => hgap c (List.mem_reverse.1 hc)
  induction lead with
  | nil => exact Text.stops_nil
  | cons part rest ih =>
      cases part with
      | word name gap =>
          obtain ⟨-, hgap, hseparate, hrest⟩ := h
          refine Text.stops_reverse_append
            (Text.stops_reverse_append (ih hrest) (.inr (hblank hgap))) (.inl ?_)
          rcases hseparate with hne | hhead
          · exact List.append_ne_nil_of_left_ne_nil hne _
          · refine List.append_ne_nil_of_right_ne_nil gap fun hnil => ?_
            rw [hnil] at hhead
            cases hhead
      | range body gap =>
          obtain ⟨-, hgap, hrest⟩ := h
          have hbehind : Stops Scan.isNamePart (.char ']' :: (gap ++ print rest)).reverse :=
            Text.stops_reverse_append (s := [.char ']'])
              (Text.stops_reverse_append (ih hrest) (.inr (hblank hgap)))
              (.inr (Text.stops_cons.2 rfl))
          exact Text.stops_reverse_append (s := .char '[' :: body)
            hbehind (.inl (List.cons_ne_nil _ _))

/-- A lead and a name start with a bracket or with a character of a name. -/
theorem stops_print {lead : List LeadPart} (h : AreLead lead) {name : Text}
    (hname : Scan.IsName name) (rest : Text) :
    Stops Text.isBlank (print lead ++ (name ++ rest)) := by
  cases lead with
  | nil => exact hname.stops
  | cons part lead =>
      cases part with
      | word name gap =>
          rw [print, List.append_assoc]
          exact h.1.stops
      | range body gap => exact Text.stops_cons.2 rfl

end LeadPart

/-! ## Parameters -/

namespace Text

/-- Blanks complete the word in front of them and start none. -/
theorem words_go_of_allBlank {blanks : Text} (h : AllBlank blanks) (word : Text) :
    words.go word blanks = words.close word := by
  induction blanks generalizing word with
  | nil => rfl
  | cons c blanks ih =>
      obtain ⟨hc, hblanks⟩ := List.forall_mem_cons.1 h
      have hrest : words.go [] blanks = [] := ih hblanks []
      rw [words.go, if_pos hc, hrest, List.append_nil]

/-- Blanks at the end add no word. -/
theorem words_go_append {blanks : Text} (h : AllBlank blanks) (word s : Text) :
    words.go word (s ++ blanks) = words.go word s := by
  induction s generalizing word with
  | nil => exact words_go_of_allBlank h word
  | cons c s ih => rw [List.cons_append, words.go, words.go, ih, ih]

/-- Blanks behind a text are no words. -/
theorem words_trimRight (s : Text) : words (trimRight s) = words s := by
  obtain ⟨back, hsplit, hback, -⟩ := exists_trimRight s
  have hwords := words_go_append hback [] (trimRight s)
  rw [← hsplit] at hwords
  exact hwords.symm

/-- Trimming leaves something of a text that is not blank. -/
theorem trimRight_ne_nil {s : Text} (h : ¬ AllBlank s) : trimRight s ≠ [] := by
  intro hnil
  obtain ⟨back, hsplit, hback, -⟩ := exists_trimRight s
  rw [hnil, List.nil_append] at hsplit
  exact h (hsplit ▸ hback)

/-- A text that is not blank ends with a character that is none once it is trimmed. -/
theorem ends_trimRight {s : Text} (h : ¬ AllBlank s) : Ends isBlank (trimRight s) := by
  obtain ⟨-, -, -, hstops⟩ := exists_trimRight s
  exact ends_of_stops (trimRight_ne_nil h) hstops

end Text

namespace ModuleHeader

open Scan

/-- Blanks are passed over up to a character that stands in no part of the text. -/
theorem head?_trimLeft_append {c : CodePoint} {s t : Text} (hs : c ∉ s)
    (ht : (Text.trimLeft t).head? ≠ some c) : (Text.trimLeft (s ++ t)).head? ≠ some c := by
  induction s with
  | nil => exact ht
  | cons d s ih =>
      rw [List.mem_cons, not_or] at hs
      rw [List.cons_append, Text.trimLeft, List.dropWhile_cons]
      split
      · exact ih hs.2
      · exact fun heq => hs.1 (Option.some.inj heq).symm

/-- No parameter is found in a text without an equals sign. -/
theorem named?_append {s t : Text} (hsign : .char '=' ∉ s) (hlast : Stops isNamePart s.reverse)
    (ht : (Text.trimLeft t).head? ≠ some (.char '=')) : named? (s ++ t) = named? t := by
  induction s with
  | nil => rfl
  | cons c s ih =>
      have hscan := name?_append_of_stops (List.cons_ne_nil c s) hlast t
      rw [List.reverse_cons] at hlast
      rw [List.cons_append] at hscan
      rw [List.cons_append, named?, hscan, ih (List.not_mem_of_not_mem_cons hsign) hlast.left]
      cases hfound : name? (c :: s) with
      | none => rfl
      | some found =>
          obtain ⟨name, rest⟩ := found
          -- Behind a name of the part stands the rest of the part or what follows it.
          have hrest : .char '=' ∉ rest := fun hmem =>
            hsign (append_of_name? hfound ▸ List.mem_append_right name hmem)
          have hhead := head?_trimLeft_append hrest ht
          simp only [Option.map_some, Option.bind_eq_bind, Option.bind_some]
          split
          · next heq => exact absurd (congrArg List.head? heq) hhead
          · rfl

/-- A name with a value behind the equals sign is found where it starts. -/
theorem named?_name {name behind value : Text} (hname : IsName name) (hbehind : AllBlank behind)
    (hvalue : value ≠ []) :
    named? (name ++ (behind ++ .char '=' :: value)) = some (name, value) := by
  have hstops : Stops isNamePart (behind ++ .char '=' :: value) :=
    Text.stops_append (Scan.stops_of_allBlank hbehind) (Text.stops_cons.2 rfl)
  have hscan := name?_append hname hstops
  have htrim : Text.trimLeft (behind ++ .char '=' :: value) = .char '=' :: value :=
    Text.trimLeft_append hbehind (Text.stops_cons.2 rfl)
  obtain ⟨c, name, rfl⟩ := List.exists_cons_of_ne_nil hname.ne_nil
  rw [List.cons_append] at hscan
  rw [List.cons_append, named?, hscan]
  simp only [Option.bind_eq_bind, Option.bind_some, htrim]
  rw [if_neg (mt List.isEmpty_iff.1 hvalue)]
  rfl

/-- The keyword ends where a blank or a range stands. -/
theorem withoutKeyword_parameter {gap rest : Text} (hgap : AllBlank gap) (hrest : IsTight rest)
    (h : gap ≠ [] ∨ rest.head? = some (.char '[')) :
    withoutKeyword (("parameter" : Text) ++ (gap ++ rest)) = rest := by
  have hstops : Stops Text.isWord (gap ++ rest) := by
    have hgap' : Stops Text.isWord gap :=
      fun c hc => Text.isWord_eq_false (hgap c (List.mem_of_mem_head? hc))
    rcases h with hne | hhead
    · exact Text.stops_append_of_ne_nil hne hgap' rest
    · refine Text.stops_append hgap' fun c hc => ?_
      obtain rfl := Option.mem_unique hc hhead
      rfl
  have hword : (("parameter" : Text) ++ (gap ++ rest)).takeWhile Text.isWord =
      ("parameter" : Text) := Text.takeWhile_append (by decide) hstops
  have htrim := Text.trim_append hgap hrest Text.allBlank_nil
  rw [List.append_nil] at htrim
  rw [withoutKeyword, hword, if_pos (.inl rfl)]
  exact htrim

end ModuleHeader

namespace ParameterText

open ModuleHeader

variable {p : ParameterText}

/-- The parameter without the blanks around its entry. -/
def trimmed (p : ParameterText) : ParameterText :=
  { p with before := [], value := Text.trimRight p.value }

/-- The declared part of a trimmed parameter ends with no blank. -/
theorem ends_declared (h : p.WellFormed) : Ends Text.isBlank p.trimmed.declared :=
  ((((Text.ends_trimRight h.notBlank).append [.char '=']).append p.behind).append p.name).append
    (LeadPart.print p.lead)

/-- Trimming a parameter trims its blanks in front and its value behind. -/
theorem trim_text (h : p.WellFormed) : Text.trim p.text = p.trimmed.text := by
  obtain ⟨back, hsplit, hback, -⟩ := Text.exists_trimRight p.value
  have htight : IsTight p.trimmed.text :=
    ⟨Text.stops_cons.2 rfl, (((ends_declared h).append p.gap).append ("parameter" : Text)).stops⟩
  have htext : p.text = p.before ++ p.trimmed.text ++ back := by
    rw [text, declared, hsplit]
    simp only [text, declared, trimmed, List.append_assoc, List.cons_append, List.nil_append]
  rw [htext, Text.trim_append h.before htight hback]

/-- A parameter of a header is one entry of its list. -/
theorem isEntryPart_text (h : p.WellFormed) : Bracket.IsEntryPart p.text := by
  have hsigned : Bracket.IsEntryPart ([.char '='] ++ p.value) :=
    (Bracket.IsEntryPart.of_not_mem (by decide)).append h.value
  exact (Bracket.IsEntryPart.of_allBlank h.before).append
    ((Bracket.IsEntryPart.of_not_mem (by decide)).append
      ((Bracket.IsEntryPart.of_allBlank h.gap).append
        ((LeadPart.isEntryPart_print h.lead).append
          ((Bracket.IsEntryPart.of_isName h.name).append
            ((Bracket.IsEntryPart.of_allBlank h.behind).append hsigned)))))

/-- A printed parameter is read with the words of its value. -/
theorem parameter?_text (h : p.WellFormed) : parameter? (Text.trim p.text) = some p.entry := by
  have htight : IsTight p.trimmed.declared :=
    ⟨LeadPart.stops_print h.lead h.name _, (ends_declared h).stops⟩
  have hseparate : p.gap ≠ [] ∨ p.trimmed.declared.head? = some (.char '[') :=
    h.separate.imp_right fun hhead => by
      rw [declared, List.head?_append]
      exact Option.or_eq_some_iff.2 (.inl hhead)
  have hkeyword : withoutKeyword p.trimmed.text = p.trimmed.declared :=
    withoutKeyword_parameter h.gap htight hseparate
  have hname : named? (p.name ++ (p.behind ++ .char '=' :: Text.trimRight p.value)) =
      some (p.name, Text.trimRight p.value) :=
    named?_name h.name h.behind (Text.trimRight_ne_nil h.notBlank)
  have hhead : (Text.trimLeft (p.name ++ (p.behind ++ .char '=' :: Text.trimRight p.value))).head? ≠
      some (.char '=') := by
    rw [Text.trimLeft_eq_self h.name.stops]
    exact fun heq => absurd (h.name.isNamePart_head heq) (by decide)
  have hfound : named? p.trimmed.declared = some (p.name, Text.trimRight p.value) :=
    (named?_append h.noSign (LeadPart.stops_reverse_print h.lead) hhead).trans hname
  rw [trim_text h, parameter?, hkeyword, hfound]
  exact congrArg (fun words => some (p.name, List.intercalate " " words))
    (Text.words_trimRight p.value)

end ParameterText

/-! ## Ports -/

namespace ModuleHeader

open Scan

/-- A character that ranges with blanks between them may end with. -/
def endsRange (c : CodePoint) : Bool :=
  Text.isBlank c || c = ']'

/-- A text that does not end as ranges do does not end with a blank. -/
theorem isBlank_of_endsRange {s : Text} (h : Ends endsRange s) : Ends Text.isBlank s := by
  obtain ⟨c, hc, hrange⟩ := h
  exact ⟨c, hc, (Bool.or_eq_false_iff.1 hrange).1⟩

/-- A range that starts in a text with closed ranges ends there, and if the text does not end as
ranges do, such a text stands behind it as well. -/
theorem exists_behind {inside : Text} {depth : Nat}
    (hclosed : Bracket.closesKind '[' ']' depth (.char '[' :: inside))
    (hlast : Ends endsRange (.char '[' :: inside)) :
    ∃ body behind more, inside = body ++ .char ']' :: behind ∧ .char ']' ∉ body ∧
      Bracket.closesKind '[' ']' more behind ∧ behind ≠ [] ∧ Ends endsRange behind := by
  have hopen : Bracket.closesKind '[' ']' (depth + 1) inside := by
    rwa [Bracket.closesKind, if_pos rfl] at hclosed
  obtain ⟨body, behind, rfl, hbody⟩ := List.eq_append_cons_of_mem
    (Bracket.closing_mem (Nat.succ_pos depth) hopen)
  have hsplit : .char '[' :: (body ++ .char ']' :: behind) =
      .char '[' :: (body ++ [.char ']']) ++ behind := by simp
  have hbehind : behind ≠ [] := by
    rintro rfl
    obtain ⟨c, hc, hrange⟩ := hlast
    rw [hsplit, List.append_nil, ← List.cons_append, List.getLast?_concat] at hc
    obtain rfl := Option.some.inj hc
    cases hrange
  rw [hsplit] at hclosed hlast
  obtain ⟨more, hmore⟩ := Bracket.exists_closesKind hclosed
  exact ⟨body, behind, more, rfl, hbody, hmore, hbehind, Text.ends_of_append hlast hbehind⟩

/-- The blanks in front of a text do not reach beyond a character that is none. -/
theorem exists_trimLeft {s : Text} (hlast : Ends Text.isBlank s) (t : Text) :
    ∃ front rest, s = front ++ rest ∧ rest ≠ [] ∧ Text.trimLeft (s ++ t) = rest ++ t := by
  obtain ⟨hsplit, hblank, hstops⟩ := Text.exists_run Text.isBlank s
  have hrest : s.dropWhile Text.isBlank ≠ [] := by
    intro hnil
    rw [hnil, List.append_nil] at hsplit
    obtain ⟨c, hc, hnone⟩ := hlast
    rw [hblank c (hsplit ▸ List.mem_of_getLast? hc)] at hnone
    cases hnone
  have htrim := Text.trimLeft_append hblank (Text.stops_append_of_ne_nil hrest hstops t)
  rw [← List.append_assoc, ← hsplit] at htrim
  exact ⟨_, _, hsplit, hrest, htrim⟩

/-- Ranges at the end of a text do not reach into a part in front that does not end as ranges do. -/
theorem isRanges_append {s : Text} {depth : Nat} (hclosed : Bracket.closesKind '[' ']' depth s)
    (hlast : Ends endsRange s) (count : Nat) (t : Text) : isRanges count (s ++ t) = false := by
  induction count generalizing s depth with
  | zero => rfl
  | succ count ih =>
      obtain ⟨front, rest, rfl, hrest, htrim⟩ := exists_trimLeft (isBlank_of_endsRange hlast) t
      have hlast := Text.ends_of_append hlast hrest
      obtain ⟨depth, hclosed⟩ := Bracket.exists_closesKind hclosed
      obtain ⟨c, inside, rfl⟩ := List.exists_cons_of_ne_nil hrest
      rw [List.cons_append] at htrim
      rw [isRanges, htrim]
      split
      · next heq =>
          obtain ⟨rfl, rfl⟩ := List.cons_eq_cons.1 heq
          obtain ⟨body, behind, more, rfl, hbody, hmore, hbehind, hends⟩ :=
            exists_behind hclosed hlast
          have hdrop : (body ++ .char ']' :: behind ++ t).dropWhile (· ≠ .char ']') =
              .char ']' :: (behind ++ t) := by
            rw [List.append_assoc]
            exact Text.dropWhile_append (fun c hc => by simpa using ne_of_mem_of_not_mem hc hbody)
              (Text.stops_cons.2 (by simp))
          have hempty : (behind ++ t).isEmpty = false := by simp [hbehind]
          rw [hdrop]
          dsimp only
          rw [hempty, Bool.false_or]
          exact ih hmore hends
      · rfl

/-- Up to a range that is closed, nothing is cut as a dimension. -/
theorem withoutDimensions_append {s : Text} {depth : Nat}
    (hclosed : Bracket.closesKind '[' ']' depth s) (hlast : Ends endsRange s) (t : Text) :
    withoutDimensions (s ++ t) = s ++ withoutDimensions t := by
  induction s generalizing depth with
  | nil => rfl
  | cons c s ih =>
      have hranges := isRanges_append hclosed hlast (c :: s ++ t).length t
      rw [List.cons_append] at hranges ⊢
      rw [withoutDimensions, if_neg (by rw [hranges]; exact Bool.false_ne_true)]
      cases s with
      | nil => rfl
      | cons d s =>
          obtain ⟨more, hclosed⟩ := Bracket.exists_closesKind (s := [c]) hclosed
          rw [ih hclosed (Text.ends_of_append (s := [c]) hlast (List.cons_ne_nil d s))]
          rfl

/-- Dimensions are ranges to the end of the text. -/
theorem isRanges_printDimensions {dimensions : List (Text × Text)} (hne : dimensions ≠ [])
    (h : ∀ d ∈ dimensions, AllBlank d.1 ∧ ∀ c ∈ d.2, isSquare c = false) {count : Nat}
    (hcount : dimensions.length ≤ count) :
    isRanges count (PortText.printDimensions dimensions) = true := by
  induction dimensions generalizing count with
  | nil => exact absurd rfl hne
  | cons dimension rest ih =>
      obtain ⟨gap, body⟩ := dimension
      obtain ⟨⟨hgap, hbody⟩, hrest⟩ := List.forall_mem_cons.1 h
      obtain ⟨count, rfl⟩ := Nat.exists_eq_add_one.2 (Nat.lt_of_lt_of_le (Nat.succ_pos _) hcount)
      have htrim :
        Text.trimLeft (gap ++ .char '[' :: (body ++ .char ']' :: PortText.printDimensions rest)) =
          .char '[' :: (body ++ .char ']' :: PortText.printDimensions rest) :=
        Text.trimLeft_append hgap (Text.stops_cons.2 rfl)
      have hrun : ∀ c ∈ body, decide (c ≠ ']') = true := by
        intro c hc
        refine decide_eq_true fun heq => ?_
        have hsquare := hbody c hc
        rw [heq] at hsquare
        cases hsquare
      have hstop : decide (CodePoint.char ']' ≠ ']') = false := by simp
      have hdrop := Text.dropWhile_append hrun
        (Text.stops_cons (s := PortText.printDimensions rest).2 hstop)
      rw [PortText.printDimensions, isRanges, htrim]
      simp only [hdrop]
      cases rest with
      | nil => rfl
      | cons next others =>
          rw [ih (List.cons_ne_nil next others) hrest (Nat.le_of_succ_le_succ hcount), Bool.or_true]

/-- Printed dimensions have at least a character each. -/
theorem length_le_printDimensions (dimensions : List (Text × Text)) :
    dimensions.length ≤ (PortText.printDimensions dimensions).length := by
  induction dimensions with
  | nil => exact Nat.le_refl 0
  | cons dimension rest ih =>
      simp only [PortText.printDimensions, List.length_append, List.length_cons]
      omega

/-- Printed dimensions are cut altogether. -/
theorem withoutDimensions_printDimensions {dimensions : List (Text × Text)}
    (h : ∀ d ∈ dimensions, AllBlank d.1 ∧ ∀ c ∈ d.2, isSquare c = false) :
    withoutDimensions (PortText.printDimensions dimensions) = [] := by
  have hlength := length_le_printDimensions dimensions
  cases hprint : PortText.printDimensions dimensions with
  | nil => rfl
  | cons c s =>
      have hne : dimensions ≠ [] := by
        rintro rfl
        cases hprint
      rw [hprint] at hlength
      have hranges := isRanges_printDimensions hne h hlength
      rw [hprint] at hranges
      rw [withoutDimensions, if_pos hranges]

/-! ## Names in an entry -/

/-- A name at the front is the first of the names. -/
theorem namesIn_of_name? {s name rest : Text} (h : name? s = some (name, rest)) :
    namesIn s = name :: namesIn rest := by
  cases s with
  | nil => cases h
  | cons c s =>
      rw [namesIn]
      split
      · next heq =>
          rw [h] at heq
          obtain ⟨rfl, rfl⟩ := Prod.mk.inj (Option.some.inj heq)
          rfl
      · next heq =>
          rw [h] at heq
          cases heq

/-- A character that starts no name is skipped. -/
theorem namesIn_of_none {c : CodePoint} {s : Text} (h : name? (c :: s) = none) :
    namesIn (c :: s) = namesIn s := by
  rw [namesIn]
  split
  · next heq =>
      rw [h] at heq
      cases heq
  · rfl

/-- The names of a text are those of its parts if the first does not end inside of a name. -/
theorem namesIn_append {s : Text} (hlast : Stops isNamePart s.reverse) (t : Text) :
    namesIn (s ++ t) = namesIn s ++ namesIn t := by
  fun_induction namesIn s with
  | case1 => rfl
  | case2 c s name rest hname ih =>
      have hscan := name?_append_of_stops (List.cons_ne_nil c s) hlast t
      rw [hname] at hscan
      rw [← append_of_name? hname, List.reverse_append] at hlast
      rw [namesIn_of_name? hscan, ih hlast.left, List.cons_append]
  | case3 c s hname ih =>
      have hscan := name?_append_of_stops (List.cons_ne_nil c s) hlast t
      rw [hname, List.cons_append] at hscan
      rw [List.reverse_cons] at hlast
      rw [List.cons_append, namesIn_of_none hscan, ih hlast.left]

/-- A text in which nothing starts a name has none. -/
theorem namesIn_eq_nil {s : Text} (h : ∀ c ∈ s, isNameStart c = false) : namesIn s = [] := by
  induction s with
  | nil => rw [namesIn]
  | cons c s ih =>
      obtain ⟨hc, hs⟩ := List.forall_mem_cons.1 h
      have hname : name? (c :: s) = none := by
        rw [name?, if_neg (by rw [hc]; exact Bool.false_ne_true)]
      rw [namesIn_of_none hname, ih hs]

/-- A name that ends is the first of the names. -/
theorem namesIn_name {name rest : Text} (hname : IsName name) (hrest : Stops isNamePart rest) :
    namesIn (name ++ rest) = name :: namesIn rest :=
  namesIn_of_name? (name?_append hname hrest)

end ModuleHeader

namespace PortText

open ModuleHeader Scan

variable {p : PortText}

/-- The name that is read from the entry of a port: the last one of an initial value, dimensions at
its end left out, or the declared one if there is none. -/
def found (p : PortText) : Text :=
  match p.initial with
  | none => p.name
  | some value => ((namesIn (withoutDimensions (Text.trimRight value))).getLast?).getD p.name

/-- The lead and the name. -/
def declared (p : PortText) : Text :=
  LeadPart.print p.lead ++ p.name

/-- What declares a port is part of one entry. -/
theorem isEntryPart_declared (h : p.WellFormed) : Bracket.IsEntryPart p.declared :=
  (LeadPart.isEntryPart_print h.lead).append (.of_isName h.name)

/-- What declares a port ends as a range or a name does. -/
theorem ends_declared (h : p.WellFormed) : Ends endsRange p.declared := by
  have hlast : Stops endsRange p.name.reverse := by
    intro c hc
    have hpart := h.name.forall_mem c (List.mem_reverse.1 (List.mem_of_mem_head? hc))
    rw [endsRange, isBlank_eq_false hpart, Bool.false_or, decide_eq_false_iff_not]
    rintro rfl
    cases hpart
  exact (Text.ends_of_stops h.name.ne_nil hlast).append (LeadPart.print p.lead)

/-- The entry of a port up to the sign in front of its initial value. -/
def signed (p : PortText) : Text :=
  p.declared ++ (p.behind ++ [.char '='])

/-- A port with its equals sign is part of one entry. -/
theorem isEntryPart_signed (h : p.WellFormed) : Bracket.IsEntryPart p.signed :=
  (isEntryPart_declared h).append
    ((Bracket.IsEntryPart.of_allBlank h.behind).append (.of_not_mem (by decide)))

/-- A port in front of its value ends with the equals sign. -/
theorem ends_signed {q : CodePoint → Bool} (hq : q '=' = false) (p : PortText) : Ends q p.signed :=
  ((Text.ends_concat hq []).append p.behind).append p.declared

/-- Nothing behind the declared name is taken for one before the initial value starts. -/
theorem namesIn_signed (h : p.WellFormed) :
    namesIn p.signed = namesIn (LeadPart.print p.lead) ++ [p.name] := by
  have hbehind : Stops isNamePart (p.behind ++ [.char '=']) :=
    Text.stops_append (Scan.stops_of_allBlank h.behind) (Text.stops_cons.2 rfl)
  have hnone : namesIn (p.behind ++ [.char '=']) = [] := by
    refine namesIn_eq_nil fun c hc => ?_
    rw [Bool.eq_false_iff]
    intro hstart
    have hpart := isNamePart_of_isWord (isWord_of_isNameStart hstart)
    rcases List.mem_append.1 hc with hc | hc
    · have hblank := h.behind c hc
      rw [isBlank_eq_false hpart] at hblank
      cases hblank
    · rw [List.mem_singleton.1 hc] at hpart
      cases hpart
  rw [signed, declared, List.append_assoc, namesIn_append (LeadPart.stops_reverse_print h.lead),
    namesIn_name h.name hbehind, hnone]

/-- Printed dimensions are part of one entry. -/
theorem isEntryPart_printDimensions {dimensions : List (Text × Text)}
    (h : ∀ d ∈ dimensions, AllBlank d.1 ∧ Bracket.IsPaired d.2) :
    Bracket.IsEntryPart (printDimensions dimensions) := by
  induction dimensions with
  | nil => exact .of_allBlank Text.allBlank_nil
  | cons dimension rest ih =>
      obtain ⟨⟨hgap, hbody⟩, hrest⟩ := List.forall_mem_cons.1 h
      have hpart := (Bracket.IsEntryPart.of_allBlank hgap).append
        ((Bracket.IsEntryPart.square hbody).append (ih hrest))
      simpa [printDimensions] using hpart

/-- A port of a header is one entry of its list. -/
theorem isEntryPart_text (h : p.WellFormed) : Bracket.IsEntryPart p.text := by
  have hinitial : Bracket.IsEntryPart (printInitial p.initial) := by
    cases hvalue : p.initial with
    | none => exact .of_allBlank Text.allBlank_nil
    | some value =>
        exact (Bracket.IsEntryPart.of_not_mem (s := [.char '=']) (by decide)).append
          (h.initial value hvalue).1
  have hdimensions := isEntryPart_printDimensions fun d hd =>
    ⟨(h.dimensions d hd).1, (h.dimensions d hd).2.2⟩
  exact (Bracket.IsEntryPart.of_allBlank h.before).append
    ((LeadPart.isEntryPart_print h.lead).append
      ((Bracket.IsEntryPart.of_isName h.name).append
        (hdimensions.append ((Bracket.IsEntryPart.of_allBlank h.behind).append hinitial))))

/-- Printed dimensions end with no blank. -/
theorem stops_reverse_printDimensions (dimensions : List (Text × Text)) :
    Stops Text.isBlank (printDimensions dimensions).reverse := by
  induction dimensions with
  | nil => exact Text.stops_nil
  | cons dimension rest ih =>
      have hlast : Stops Text.isBlank (.char ']' :: printDimensions rest).reverse :=
        Text.stops_reverse_append (s := [.char ']']) ih (.inr (Text.stops_cons.2 rfl))
      have hrange :
          Stops Text.isBlank
            (.char '[' :: dimension.2 ++ .char ']' :: printDimensions rest).reverse :=
        Text.stops_reverse_append hlast (.inl (List.cons_ne_nil _ _))
      exact Text.stops_reverse_append hrange (.inl (List.cons_ne_nil _ _))

/-- A port without a value is trimmed to its declaration and its dimensions. -/
theorem trim_text_of_none (h : p.WellFormed) (hinitial : p.initial = none) :
    Text.trim p.text = p.declared ++ printDimensions p.dimensions := by
  have hfirst : Stops Text.isBlank (p.declared ++ printDimensions p.dimensions) := by
    rw [declared, List.append_assoc]
    exact LeadPart.stops_print h.lead h.name _
  have hlast := Text.stops_reverse_append (stops_reverse_printDimensions p.dimensions)
    (.inr (isBlank_of_endsRange (ends_declared h)).stops)
  rw [← Text.trim_append h.before ⟨hfirst, hlast⟩ h.behind]
  simp [text, declared, hinitial, printInitial]

/-- A port with a value is trimmed where its value ends. -/
theorem trim_text_of_some (h : p.WellFormed) {value : Text} (hinitial : p.initial = some value) :
    Text.trim p.text = p.signed ++ Text.trimRight value := by
  obtain ⟨-, hblank, hdimensions⟩ := h.initial value hinitial
  obtain ⟨back, hsplit, hback, -⟩ := Text.exists_trimRight value
  have hfirst : Stops Text.isBlank (p.signed ++ Text.trimRight value) := by
    rw [signed, declared, List.append_assoc, List.append_assoc]
    exact LeadPart.stops_print h.lead h.name _
  have hlast := ((Text.ends_trimRight hblank).append p.signed).stops
  generalize Text.trimRight value = core at hsplit hfirst hlast ⊢
  rw [← Text.trim_append h.before ⟨hfirst, hlast⟩ hback, text, hinitial, printInitial, hdimensions,
    printDimensions, hsplit]
  simp [signed, declared]

/-- The name that is read from a printed port. -/
theorem port?_text (h : p.WellFormed) : port? (Text.trim p.text) = some p.found := by
  cases hinitial : p.initial with
  | none =>
      have hfound : p.found = p.name := by rw [found, hinitial]
      have hranges := withoutDimensions_printDimensions fun d hd =>
        ⟨(h.dimensions d hd).1, (h.dimensions d hd).2.1⟩
      have hname := namesIn_append (LeadPart.stops_reverse_print h.lead) (p.name ++ [])
      rw [namesIn_name h.name Text.stops_nil, namesIn, List.append_nil] at hname
      rw [trim_text_of_none h hinitial, port?, withoutDimensions_append
        (isEntryPart_declared h).paired.squares (ends_declared h), hranges, List.append_nil,
        declared, hname, List.getLast?_concat, hfound]
  | some value =>
      have hfound : p.found =
          ((namesIn (withoutDimensions (Text.trimRight value))).getLast?).getD p.name := by
        rw [found, hinitial]
      -- The dimensions that are cut off stand in the value, behind the equals sign.
      rw [trim_text_of_some h hinitial, port?, withoutDimensions_append
        (isEntryPart_signed h).paired.squares (ends_signed rfl p),
        namesIn_append (ends_signed rfl p).stops, namesIn_signed h, List.getLast?_append,
        List.getLast?_concat, hfound, Option.or_some]

end PortText
end VerilogLayout

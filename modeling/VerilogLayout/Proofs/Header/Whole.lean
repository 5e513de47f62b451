import VerilogLayout.Proofs.Header.Entry

/-!
# Reading a whole header

A header is read from the left: the declared name, the list of parameters behind its sign, the list
of ports. Each step is handed the text behind the one before, so for each there is one lemma about
the printed piece with any text behind it. `upToClosing?_append` ends a list at its own parenthesis,
and `entries_printList` cuts it at its own commas, both because the entries close what they open.
`ofSource?_text` puts the steps together.
-/

namespace VerilogLayout

open Text (AllBlank Stops)

/-! ## Comments -/

namespace Template

/-- A text in which no block comment opens stays as it is. -/
theorem withoutBlockComments_eq_self {s : Text} (h : Text.includes s "/*" = false) :
    withoutBlockComments s = s := by
  fun_induction withoutBlockComments s with
  | case1 => rfl
  | case2 rest n hfound ih =>
      have hpair : Text.includes (.char '/' :: .char '*' :: rest) "/*" = true :=
        Text.includes_iff.2 ⟨[], rest, rfl⟩
      rw [h] at hpair
      cases hpair
  | case3 rest hfound => rfl
  | case4 c rest hnot ih =>
      rw [ih (Text.includes_eq_false_of_infix h (List.infix_cons List.infix_rfl))]

/-- A text without two slashes in a row stays as it is. -/
theorem withoutLineComments_eq_self {s : Text} (h : Text.includes s "//" = false) :
    withoutLineComments s = s := by
  suffices hgo : withoutLineComments.go false s = s from hgo
  induction s with
  | nil => rfl
  | cons c s ih =>
      have hrest := ih (Text.includes_eq_false_of_infix h (List.infix_cons List.infix_rfl))
      have hpair : ¬ (c = '/' ∧ s.head? = some (.char '/')) := by
        have hfirst := Text.includes_cons (a := '/') (b := '/') c s
        rw [Bool.eq_false_iff] at h
        exact fun hboth => h (hfirst.trans (by rw [decide_eq_true hboth, Bool.true_or]))
      by_cases hfeed : c = '\n'
      · rw [hfeed, withoutLineComments.go, hrest]
      · rw [withoutLineComments.go, if_neg Bool.false_ne_true, if_neg hpair, hrest]
        exact hfeed

/-- A text without the signs of a comment has none. -/
theorem withoutComments_eq_self {s : Text} (hline : Text.includes s "//" = false)
    (hblock : Text.includes s "/*" = false) : withoutComments s = s := by
  rw [withoutComments, withoutBlockComments_eq_self hblock, withoutLineComments_eq_self hline]

end Template

namespace ModuleHeader

open Scan

/-! ## The name -/

/-- A text declares a module only where the keyword starts. -/
theorem declaredName?_eq_none {c : CodePoint} (h : c ≠ 'm') (s : Text) :
    declaredName? (c :: s) = none := by
  have hstart : ∀ word : Text, Text.startsWith (c :: s) (.char 'm' :: word) = false := by
    intro word
    rw [Bool.eq_false_iff]
    exact fun hprefix => h (List.cons_prefix_cons.1 (Text.startsWith_iff.1 hprefix)).1.symm
  exact (if_neg (Bool.eq_false_iff.1 (hstart "acromodule"))).trans
    (if_neg (Bool.eq_false_iff.1 (hstart "odule")))

/-- Blanks in front of a header are passed over. -/
theorem findName?_append {blanks : Text} (h : AllBlank blanks) (s : Text) :
    findName? false (blanks ++ s) = findName? false s := by
  induction blanks with
  | nil => rfl
  | cons c blanks ih =>
      obtain ⟨hc, hblanks⟩ := List.forall_mem_cons.1 h
      have hne : c ≠ 'm' := by
        rintro rfl
        cases hc
      rw [List.cons_append, findName?, if_neg Bool.false_ne_true, declaredName?_eq_none hne,
        Text.isWord_eq_false hc]
      exact ih hblanks

/-- The name declared at the start of a text is the one that is found. -/
theorem findName?_of_declaredName? {s : Text} {found : Text × Text}
    (h : declaredName? s = some found) : findName? false s = some found := by
  cases s with
  | nil => cases h
  | cons c s => rw [findName?, if_neg Bool.false_ne_true, h]

/-- The name behind the keyword at the front is the first one. -/
theorem findName?_module {gap name rest : Text} (hgap : AllBlank gap) (hne : gap ≠ [])
    (hname : IsName name) (hrest : Stops isNamePart rest) :
    findName? false (("module" : Text) ++ (gap ++ (name ++ rest))) = some (name, rest) := by
  have htrim : Text.trimLeft (gap ++ (name ++ rest)) = name ++ rest :=
    Text.trimLeft_append hgap hname.stops
  have hblank : (gap ++ (name ++ rest)).head?.any Text.isBlank = true := by
    obtain ⟨c, gap, rfl⟩ := List.exists_cons_of_ne_nil hne
    exact hgap c List.mem_cons_self
  have hbehind : declaredName?.behind (gap ++ (name ++ rest)) = some (name, rest) := by
    rw [declaredName?.behind, if_pos hblank, htrim, name?_append hname hrest]
  exact findName?_of_declaredName? hbehind

/-! ## Lists -/

/-- A list ends at the parenthesis that closes it. -/
theorem upToClosing?_append {depth : Nat} {body : Text}
    (h : Bracket.closesKind '(' ')' depth body) (rest : Text) :
    upToClosing? (depth + 1) (body ++ .char ')' :: rest) = some (body, rest) := by
  induction body generalizing depth with
  | nil =>
      obtain rfl : depth = 0 := of_decide_eq_true h
      rfl
  | cons c body ih =>
      rw [Bracket.closesKind] at h
      rw [List.cons_append, upToClosing?]
      split at h
      · next hopen =>
          subst hopen
          rw [if_neg (fun hboth => absurd hboth.1 (by decide)), if_pos rfl]
          exact congrArg (Option.map fun found => (.char '(' :: found.1, found.2)) (ih h)
      · next hopen =>
          split at h
          · next hclose =>
              subst hclose
              obtain ⟨hne, hbody⟩ := Bool.and_eq_true_iff.1 h
              obtain ⟨depth, rfl⟩ := Nat.exists_eq_add_one_of_ne_zero (of_decide_eq_true hne)
              rw [if_neg (fun hboth => absurd hboth.2 (by omega)), if_neg hopen, if_pos rfl]
              exact congrArg (Option.map fun found => (.char ')' :: found.1, found.2)) (ih hbody)
          · next hclose =>
              rw [if_neg (fun hboth => hclose hboth.1), if_neg hopen, if_neg hclose]
              exact congrArg (Option.map fun found => (c :: found.1, found.2)) (ih h)

/-- A paired text in brackets is read as the group that it is. -/
theorem group?_append {body : Text} (h : Bracket.IsPaired body) (rest : Text) :
    group? (.char '(' :: (body ++ .char ')' :: rest)) = .ok (body, rest) := by
  rw [group?, upToClosing?_append h.parens]

/-- Entries with commas between them are told apart again. -/
theorem topLevelParts_intercalate {entries : List Text} (hne : entries ≠ [])
    (h : ∀ entry ∈ entries, Bracket.IsEntryPart entry) :
    Bracket.topLevelParts ',' 0 (List.intercalate "," entries) = entries := by
  induction entries with
  | nil => exact absurd rfl hne
  | cons entry rest ih =>
      obtain ⟨hentry, hrest⟩ := List.forall_mem_cons.1 h
      cases rest with
      | nil =>
          rw [List.intercalate_singleton]
          exact Bracket.topLevelParts_of_whole hentry.whole
      | cons next others =>
          have hdepth := (hentry.paired.depthBehind 0).1
          rw [List.intercalate_cons_cons, List.append_assoc]
          exact (Bracket.topLevelParts_append hentry.whole hdepth _).trans
            (congrArg (entry :: ·) (ih (List.cons_ne_nil next others) hrest))

/-- The entries of a printed list are found again without the blanks around them. -/
theorem entries_printList {blank : Text} (hblank : AllBlank blank) {texts : List Text}
    (h : ∀ entry ∈ texts, Bracket.IsEntryPart entry ∧ Text.trim entry ≠ []) :
    entries (printList blank texts) = texts.map Text.trim := by
  cases texts with
  | nil =>
      have hparts := Bracket.topLevelParts_of_whole (Bracket.IsEntryPart.of_allBlank hblank).whole
      have htrim := Text.trim_append hblank ⟨Text.stops_nil, Text.stops_nil⟩ Text.allBlank_nil
      rw [List.append_nil, List.append_nil] at htrim
      rw [entries, printList, List.isEmpty_nil, if_pos rfl, hparts, List.map_singleton, htrim]
      rfl
  | cons text rest =>
      have hparts := topLevelParts_intercalate (List.cons_ne_nil text rest) fun entry hentry =>
        (h entry hentry).1
      rw [entries, printList, List.isEmpty_cons, if_neg Bool.false_ne_true, hparts,
        List.filter_eq_self]
      intro entry hentry
      obtain ⟨text, htext, rfl⟩ := List.mem_map.1 hentry
      simpa using (h text htext).2

/-- A printed list is paired. -/
theorem isPaired_printList {blank : Text} (hblank : AllBlank blank) {texts : List Text}
    (h : ∀ entry ∈ texts, Bracket.IsEntryPart entry) :
    Bracket.IsPaired (printList blank texts) := by
  have hcomma : Bracket.IsPaired ("," : Text) := by decide
  rw [printList]
  split
  · exact (Bracket.IsEntryPart.of_allBlank hblank).paired
  · clear hblank
    induction texts with
    | nil => decide
    | cons text rest ih =>
        obtain ⟨htext, hrest⟩ := List.forall_mem_cons.1 h
        cases rest with
        | nil =>
            rw [List.intercalate_singleton]
            exact htext.paired
        | cons next others =>
            rw [List.intercalate_cons_cons]
            exact (htext.paired.append hcomma).append (ih hrest (by simp))

/-- If each entry is read for itself, the whole list is. -/
theorem filterMap_entries {α β : Type} {print : α → Text} {read : Text → Option β} {found : α → β}
    {blank : Text} (hblank : AllBlank blank) (hread : read [] = none) {list : List α}
    (h : ∀ x ∈ list, Bracket.IsEntryPart (print x) ∧ read (Text.trim (print x)) = some (found x)) :
    (entries (printList blank (list.map print))).filterMap read = list.map found := by
  have htexts : ∀ text ∈ list.map print, Bracket.IsEntryPart text ∧ Text.trim text ≠ [] := by
    intro text htext
    obtain ⟨x, hx, rfl⟩ := List.mem_map.1 htext
    refine ⟨(h x hx).1, fun hnil => ?_⟩
    have hfound := (h x hx).2
    rw [hnil, hread] at hfound
    cases hfound
  rw [entries_printList hblank htexts]
  clear htexts
  induction list with
  | nil => rfl
  | cons x rest ih =>
      obtain ⟨hx, hrest⟩ := List.forall_mem_cons.1 h
      rw [List.map_cons, List.map_cons, List.filterMap_cons_some hx.2, ih hrest, List.map_cons]

/-- The list behind the sign for parameters is read up to the blanks behind it. -/
theorem parameters?_sign {behind body : Text} (hbehind : AllBlank behind)
    (hbody : Bracket.IsPaired body) (tail name : Text) :
    parameters? name (.char '#' :: (behind ++ .char '(' :: (body ++ .char ')' :: tail))) =
      .ok ((entries body).filterMap parameter?, Text.trimLeft tail) := by
  have hopening : ∀ c ∈ .char '#' :: behind, decide (c ≠ '(') = true := by
    refine fun c hc => decide_eq_true ?_
    rintro rfl
    rcases List.mem_cons.1 hc with heq | hc
    · cases heq
    · exact absurd (hbehind _ hc) (by decide)
  have hstops : Stops (fun c => decide (c ≠ '(')) (.char '(' :: (body ++ .char ')' :: tail)) :=
    Text.stops_cons.2 (by simp)
  have hdrop := Text.dropWhile_append hopening hstops
  rw [List.cons_append] at hdrop
  have hsign :
      Text.startsWith (.char '#' :: (behind ++ .char '(' :: (body ++ .char ')' :: tail))) "#" =
        true :=
    Text.startsWith_iff.2 ⟨_, rfl⟩
  rw [parameters?, if_pos hsign, hdrop]
  simp only [group?_append hbody]
  rfl

/-- The list of parameters is read up to the text behind it. -/
theorem parameters?_print {h : HeaderText} (hwell : h.WellFormed) {tail ports : Text}
    (htail : Text.trimLeft tail = .char '(' :: ports) (name : Text) :
    parameters? name (Text.trimLeft (h.printParameters ++ tail)) =
      .ok (h.parameterTexts.map ParameterText.entry, .char '(' :: ports) := by
  cases hlist : h.parameters with
  | none =>
      rw [HeaderText.printParameters, HeaderText.parameterTexts, hlist]
      exact congrArg (parameters? name) htail
  | some l =>
      obtain ⟨hbefore, hbehind, hblank, hentries⟩ := hwell.parameters l hlist
      have hpaired := isPaired_printList hblank fun text htext => by
        obtain ⟨p, hp, rfl⟩ := List.mem_map.1 htext
        exact ParameterText.isEntryPart_text (hentries p hp)
      have hnone : parameter? [] = none := rfl
      have hread := filterMap_entries hblank hnone fun p hp =>
        ⟨ParameterText.isEntryPart_text (hentries p hp),
          ParameterText.parameter?_text (hentries p hp)⟩
      have hprint : l.text ++ tail = l.before ++ .char '#' :: (l.behind ++
          .char '(' ::
            (printList l.blank (l.entries.map ParameterText.text) ++ .char ')' :: tail)) := by
        simp [ParameterList.text]
      rw [HeaderText.printParameters, HeaderText.parameterTexts, hlist, Option.map_some,
        Option.map_some, Option.getD_some, Option.getD_some, hprint,
        Text.trimLeft_append hbefore (Text.stops_cons.2 rfl), parameters?_sign hbehind hpaired,
        hread, htail]

/-- Printed ports are read back, each with the name that is found in it. -/
theorem ports?_print {h : HeaderText} (hwell : h.WellFormed) (name after : Text) :
    ports? name
      (.char '(' :: (printList h.blank (h.ports.map PortText.text) ++ .char ')' :: after)) =
      .ok (h.ports.map PortText.found) := by
  have hpaired := isPaired_printList hwell.blank fun text htext => by
    obtain ⟨p, hp, rfl⟩ := List.mem_map.1 htext
    exact PortText.isEntryPart_text (hwell.ports p hp)
  have hnone : port? [] = none := by rw [port?, withoutDimensions, namesIn, List.getLast?_nil]
  have hread := filterMap_entries hwell.blank hnone fun p hp =>
    ⟨PortText.isEntryPart_text (hwell.ports p hp), PortText.port?_text (hwell.ports p hp)⟩
  have hopen : ∀ s : Text, Text.startsWith (.char '(' :: s) "(" = true :=
    fun s => Text.startsWith_iff.2 ⟨s, rfl⟩
  rw [ports?, if_pos (hopen _)]
  simp only [group?_append hpaired]
  exact congrArg Except.ok hread

/-- The header that is read from a printed one, whatever stands behind it. -/
theorem ofSource?_text {h : HeaderText} (hwell : h.WellFormed) {after : Text}
    (hline : Text.includes (h.text ++ after) "//" = false)
    (hblock : Text.includes (h.text ++ after) "/*" = false) :
    ofSource? (h.text ++ after) = .ok { h.header with ports := h.ports.map PortText.found } := by
  generalize htail : h.beforePorts ++
    .char '(' :: (printList h.blank (h.ports.map PortText.text) ++ .char ')' :: after) = tail
  have htrim : Text.trimLeft tail =
      .char '(' :: (printList h.blank (h.ports.map PortText.text) ++ .char ')' :: after) := by
    rw [← htail]
    exact Text.trimLeft_append hwell.beforePorts (Text.stops_cons.2 rfl)
  have hprint : h.text ++ after =
      h.before ++ (("module" : Text) ++ (h.gap ++ (h.name ++ (h.printParameters ++ tail)))) := by
    simp [HeaderText.text, ← htail]
  -- Blanks, the sign for parameters or the list of ports stand behind the name.
  have hstops : Stops isNamePart (h.printParameters ++ tail) := by
    refine Text.stops_append ?_ ?_
    · rw [HeaderText.printParameters]
      cases hlist : h.parameters with
      | none => exact Text.stops_nil
      | some l =>
          exact Text.stops_append (stops_of_allBlank (hwell.parameters l hlist).before)
            (Text.stops_cons.2 rfl)
    · rw [← htail]
      exact Text.stops_append (stops_of_allBlank hwell.beforePorts) (Text.stops_cons.2 rfl)
  have hfound : findName? false (h.text ++ after) = some (h.name, h.printParameters ++ tail) := by
    rw [hprint, findName?_append hwell.before,
      findName?_module hwell.gap hwell.separate hwell.name hstops]
  have hports := ports?_print hwell h.name after
  rw [ofSource?, Template.withoutComments_eq_self hline hblock, hfound]
  simp only [parameters?_print hwell htrim, bind, Except.bind, hports]
  rfl

end ModuleHeader

end VerilogLayout

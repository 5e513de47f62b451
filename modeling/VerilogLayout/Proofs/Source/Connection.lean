import VerilogLayout.Proofs.Source.Assign

/-!
# Connections that are laid out as they stand

The value of a connection reaches to the last closing parenthesis, which `findLast?_append` finds
again behind whatever stands inside. A connection is measured from a column of its own, which is not
one of the columns that are set.
-/

namespace VerilogLayout

open Text (Stops)

namespace Text

variable {a : CodePoint}

theorem findLast?_of_not_mem {s : Text} (h : a ∉ s) : findLast? [a] s = none := by
  induction s with
  | nil => rfl
  | cons c s ih =>
      rw [List.mem_cons, not_or] at h
      have hstart : startsWith (c :: s) [a] = false := by
        rw [Bool.eq_false_iff]
        intro hprefix
        exact h.1 (List.cons_prefix_cons.1 (startsWith_iff.1 hprefix)).1
      rw [findLast?, ih h.2, hstart]
      rfl

/-- The last place of a character is the one that it does not stand behind. -/
theorem findLast?_append (s : Text) {t : Text} (h : a ∉ t) :
    findLast? [a] (s ++ a :: t) = some s.length := by
  induction s with
  | nil =>
      have hstart : startsWith (a :: t) [a] :=
        startsWith_iff.2 (List.cons_prefix_cons.2 ⟨rfl, List.nil_prefix⟩)
      rw [List.nil_append, findLast?, findLast?_of_not_mem h]
      exact if_pos hstart
  | cons c s ih =>
      rw [List.cons_append, findLast?, ih]
      rfl

theorem of_findLast? {s : Text} {n : Nat} (h : findLast? [a] s = some n) :
    s = s.take n ++ a :: s.drop (n + 1) := by
  induction s generalizing n with
  | nil => cases h
  | cons c s ih =>
      rw [findLast?] at h
      split at h
      · next m hfound =>
          obtain rfl := Option.some.inj h
          exact congrArg (c :: ·) (ih hfound)
      · split at h
        · next hstart =>
            obtain rfl := Option.some.inj h
            obtain rfl := (List.cons_prefix_cons.1 (startsWith_iff.1 hstart)).1
            rfl
        · cases h

end Text

namespace LineForm

open Scan Line

theorem atLastClosing?_append (value : Text) {rest : Text} (h : .char ')' ∉ rest) :
    atLastClosing? (value ++ .char ')' :: rest) = some (value, rest) := by
  have hfound : Text.findLast? ")" (value ++ .char ')' :: rest) = some value.length :=
    Text.findLast?_append value h
  have hbehind : (value ++ .char ')' :: rest).drop (value.length + 1) = rest := by
    rw [← List.drop_drop, List.drop_left]
    rfl
  rw [atLastClosing?, hfound, Option.map_some, List.take_left, hbehind]

theorem of_atLastClosing? {s value rest : Text} (h : atLastClosing? s = some (value, rest)) :
    s = value ++ .char ')' :: rest := by
  obtain ⟨n, hfound, heq⟩ := Option.map_eq_some_iff.1 h
  obtain ⟨rfl, rfl⟩ := Prod.mk.inj heq
  exact Text.of_findLast? hfound

section
variable {name value terminator : Text}

/-- A connection is read from its last closing parenthesis backwards. -/
theorem connection?_append (hname : IsName name) {gap behind : Text} (hgap : Text.AllBlank gap)
    (hstops : Stops isNamePart (gap ++ .char '(' :: (value ++ .char ')' :: behind)))
    (hclosing : .char ')' ∉ behind)
    (h : Text.trimLeft behind = [] ∨ Text.trimLeft behind = [.char ',']) :
    connection? (.char '.' :: (name ++ (gap ++ .char '(' :: (value ++ .char ')' :: behind)))) =
      some (.connection name (Text.trim value) (Text.trimLeft behind)) := by
  have htrim : Text.trimLeft (gap ++ .char '(' :: (value ++ .char ')' :: behind)) =
      .char '(' :: (value ++ .char ')' :: behind) :=
        Text.trimLeft_append hgap (Text.stops_cons.2 rfl)
  unfold connection?
  simp only [name?_append hname hstops, htrim, atLastClosing?_append value hclosing,
    Option.bind_eq_bind, Option.bind_some]
  exact if_pos h

theorem of_connection? {code : Text} {form : LineForm} (h : connection? code = some form) :
    ∃ name gap value behind,
      form = .connection name (Text.trim value) (Text.trimLeft behind) ∧ IsName name ∧
        Text.AllBlank gap ∧ (Text.trimLeft behind = [] ∨ Text.trimLeft behind = [.char ',']) ∧
          code = .char '.' :: (name ++ (gap ++ .char '(' :: (value ++ .char ')' :: behind))) := by
  unfold connection? at h
  split at h
  · next rest =>
      obtain ⟨⟨name, rest'⟩, hname, h⟩ := Option.bind_eq_some_iff.1 h
      dsimp only at h
      split at h
      · next inside heq =>
          obtain ⟨⟨value, behind⟩, hclosing, h⟩ := Option.bind_eq_some_iff.1 h
          dsimp only at h
          split at h
          · next hterminator =>
              obtain ⟨hsplit, hblank, -⟩ := Text.exists_run Text.isBlank rest'
              have hopen : rest'.dropWhile Text.isBlank = .char '(' :: inside := heq
              rw [hopen, of_atLastClosing? hclosing] at hsplit
              refine ⟨name, _, value, behind, (Option.some.inj h).symm, isName_of_name? hname,
                hblank, hterminator, ?_⟩
              rw [← hsplit, append_of_name? hname]
          · cases h
      · cases h
  · cases h

/-- The name and the value of a connection are read back. -/
theorem connection?_written (hname : IsName name) (hvalue : value.IsTight)
    (h : terminator = [] ∨ terminator = [.char ',']) {a : Nat} (ha : 0 < a) :
    connection?
      (.char '.' :: (name ++ (Text.spaces a ++ .char '(' :: (value ++ .char ')' :: terminator)))) =
      some (.connection name value terminator) := by
  have htrim : Text.trimLeft terminator = terminator := by
    rcases h with rfl | rfl <;> rfl
  have hclosing : .char ')' ∉ terminator := by
    rcases h with rfl | rfl <;> decide
  have hread := connection?_append hname (Text.allBlank_spaces a)
    (stops_spaces rfl ha (.char '(' :: (value ++ .char ')' :: terminator))) hclosing
    (by rwa [htrim])
  rwa [htrim, Text.trim_eq_self hvalue] at hread

/-- A connection has a gap between its name and its value. -/
theorem exists_connection (name value terminator : Text) (column start : Int) :
    ∃ a, 0 < a ∧ Layout.connection name value column terminator start =
      .char '.' ::
        (name ++ (Text.spaces a ++ .char '(' :: (value ++ .char ')' :: terminator))) := by
  have hne : (append { start } ("." ++ name)).text ≠ [] := by simp [append]
  obtain ⟨a, ha, hplace⟩ := exists_gap hne ("(" ++ value ++ ")") column
  have hgap : gapped a (("(" : Text) ++ value ++ (")" : Text)) =
      Text.spaces a ++ .char '(' :: (value ++ [.char ')']) :=
    gapped_of_ne_nil a (by simp)
  rw [hgap] at hplace
  refine ⟨a, ha, ?_⟩
  rw [Layout.connection, append]
  refine (congrArg (· ++ terminator) hplace).trans ?_
  simp only [append, List.append_assoc, List.cons_append, List.nil_append]
  rfl

/-- The line of a connection. -/
theorem exists_layout_connection (columns : Columns) (inParameters : Bool) (indent : Nat)
    (name value terminator : Text) :
    ∃ a, 0 < a ∧ layout columns indent inParameters (.connection name value terminator) =
      Text.spaces (connectionIndent + shiftFor indent connectionIndent) ++
        .char '.' ::
          (name ++ (Text.spaces a ++ .char '(' :: (value ++ .char ')' :: terminator))) := by
  obtain ⟨a, ha, hline⟩ := exists_connection name value terminator
    ((if inParameters then columns .parameterValue else columns .portValue) +
      shiftFor indent connectionIndent) (connectionIndent + shiftFor indent connectionIndent)
  exact ⟨a, ha, congrArg (Text.spaces _ ++ ·) hline⟩

theorem isTight_connection (h : terminator = [] ∨ terminator = [.char ',']) (name value : Text)
    (a : Nat) : Text.IsTight (.char '.' :: (name ++ (Text.spaces a ++
      .char '(' :: (value ++ .char ')' :: terminator)))) := by
  have hend : Text.Ends Text.isBlank (.char ')' :: terminator) := by
    rcases h with rfl | rfl
    · exact ⟨')', rfl, rfl⟩
    · exact ⟨',', rfl, rfl⟩
  exact ⟨Text.stops_cons.2 rfl,
    (((((hend.append _).append [.char '(']).append _).append _).append [.char '.']).stops⟩

/-- The code of a connection is read as that connection. -/
theorem eq_connection_of_ofCode? (hname : IsName name) (hvalue : value.IsTight)
    (h : terminator = [] ∨ terminator = [.char ',']) {a : Nat} (ha : 0 < a) {form : LineForm}
    (hform :
      ofCode? (.char '.' ::
        (name ++ (Text.spaces a ++ .char '(' :: (value ++ .char ')' :: terminator)))) =
      some form) : form = .connection name value terminator := by
  have hread := connection?_written hname hvalue h ha
  have hfirst : (.char '.' :: (name ++ (Text.spaces a ++ .char '(' :: (value ++
    .char ')' :: terminator)))).takeWhile Text.isWord = [] := rfl
  rcases (of_ofCode? hform).2 with hfound | ⟨-, hfound | ⟨-, hfound | ⟨-, hfound | ⟨-, hfound⟩⟩⟩⟩
  · rw [port?_eq_none (by rw [hfirst]; decide)] at hfound
    cases hfound
  · rw [signal?_eq_none (by rw [hfirst]; decide)] at hfound
    cases hfound
  · rw [parameter?_eq_none (by rw [hfirst]; decide)] at hfound
    cases hfound
  · rw [assign?_eq_none (by rw [hfirst]; decide)] at hfound
    cases hfound
  · rw [hread] at hfound
    exact (Option.some.inj hfound).symm

end

theorem settled_connection (columns : Columns) (inParameters : Bool) (indent : Nat) {code : Text}
    {form : LineForm} (h : connection? code = some form) :
    ∃ start code', form.layout columns indent inParameters = Text.spaces start ++ code' ∧
      Settled columns inParameters start code code' := by
  obtain ⟨name, gap, value, behind, rfl, hname, hgap, hterminator, rfl⟩ := of_connection? h
  obtain ⟨a, ha, hline⟩ := exists_layout_connection columns inParameters indent name
    (Text.trim value) (Text.trimLeft behind)
  obtain ⟨front, back, hsplit, hfront, hback, htight⟩ := Text.exists_trim value
  refine ⟨_, _, hline, isTight_connection hterminator name _ a, ⟨'.', rfl, rfl, by decide⟩, ?_, ?_⟩
  · have hmild : ∀ {s : Text}, Text.AllBlank s → ∀ c ∈ s, Watch.IsMild c :=
      fun h c hc => Watch.isMild_of_isBlank (h c hc)
    have hneat : ∀ c ∈ .char '.' :: name, Watch.IsNeat c := List.forall_mem_cons.2 ⟨by decide,
      fun c hc => Watch.isNeat_of_isNamePart (hname.forall_mem c hc)⟩
    have hfirst : ∀ c ∈ .char '.' :: name ++ gap, Watch.IsMild c :=
      List.forall_mem_append.2 ⟨fun c hc => (hneat c hc).1, hmild hgap⟩
    have hfirst' : ∀ c ∈ .char '.' :: name ++ Text.spaces a, Watch.IsNeat c :=
      List.forall_mem_append.2 ⟨hneat, fun _ => Watch.isNeat_of_mem_spaces⟩
    -- The line is compared piece by piece, from the name to what stands behind the closing
    -- parenthesis.
    have hinside := Watch.MayBecome.gap (hmild hback) (List.forall_mem_nil _) (c := ')')
      (by decide) (Text.trim value) []
    have hplain : Watch.EndsPlain (Text.trim value ++ (back ++ [.char ')'])) := by
      rw [← List.append_assoc]
      exact Watch.endsPlain_append rfl
    have hall := Watch.MayBecome.append (.of_isMild hfirst hfirst')
      (Watch.endsPlain_of_isMild hfirst)
      (.append (.refl [.char '(']) (Watch.endsPlain_append (s := []) rfl)
        (.mild_append (hmild hfront)
          (hinside.append hplain (Passes.trimLeft behind).mayBecome)))
    have htext : .char '.' :: (name ++ (gap ++ .char '(' :: (value ++ .char ')' :: behind))) =
        .char '.' :: name ++ gap ++
          ([.char '('] ++ (front ++ (Text.trim value ++ (back ++ [.char ')']) ++
          behind))) := by
      refine Eq.trans
        (congrArg (fun s => .char '.' :: (name ++ (gap ++ .char '(' :: (s ++ .char ')' :: behind))))
          hsplit) ?_
      simp only [List.append_assoc, List.cons_append, List.nil_append]
    rw [htext]
    simpa only [List.append_assoc, List.cons_append, List.nil_append] using hall
  · intro _ form hform
    obtain rfl := eq_connection_of_ofCode? hname htight hterminator ha hform
    rw [← hline, layout, layout, shiftFor_add]

end LineForm
end VerilogLayout

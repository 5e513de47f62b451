import VerilogLayout.Proofs.Source.Parameter

/-!
# Assignments that are laid out as they stand

The target of an assignment ends at the first equals sign, so it is read back from behind the gap
that it is written with, `assign?_written`. A blank target stays blank.
-/

namespace VerilogLayout

open Text (Stops)

namespace LineForm

open Scan Line

/-- A target as it is read from a line. -/
structure IsTarget (s : Text) : Prop where
  no_equals : .char '=' ∉ s
  no_hash : .char '#' ∉ s
  no_semicolon : .char ';' ∉ s

theorem IsTarget.trim {s : Text} (h : IsTarget s) : IsTarget (Text.trim s) := by
  obtain ⟨front, back, hs, -⟩ := Text.exists_trim s
  have hmem : ∀ c ∈ Text.trim s, c ∈ s := fun c hc => by
    rw [hs]
    exact List.mem_append_left _ (List.mem_append_right _ hc)
  exact ⟨mt (hmem '=') h.no_equals, mt (hmem '#') h.no_hash, mt (hmem ';') h.no_semicolon⟩

theorem isKeyword_assign : IsKeyword ("assign" : Text) := by
  decide

theorem not_mem_assign : ("assign" : Text) ∉ directions ∧ ("assign" : Text) ∉ signalKeywords ∧
    ("assign" : Text) ∉ parameterKeywords := by
  decide

theorem parameter?_eq_none {s : Text} (h : s.takeWhile Text.isWord ∉ parameterKeywords) :
    parameter? s = none := by
  rw [parameter?, keyword?_eq_none h]
  rfl

/-- An assignment is read from its first equals sign on. -/
theorem assign?_append {target body : Text}
    (hword : Stops Text.isWord (target ++ .char '=' :: body))
    (hne : target ≠ []) (h : IsTarget target) :
    assign? (("assign" : Text) ++ (target ++ .char '=' :: body)) =
      (statement? body).map fun value => .assign (Text.trim target) (Text.trim value) := by
  have hrun : ∀ c ∈ target, decide (c ≠ '=') = true := by
    rintro c hc
    refine decide_eq_true fun heq => h.no_equals (heq ▸ hc)
  have hstops : Stops (fun c => decide (c ≠ '=')) (.char '=' :: body) := Text.stops_cons.2 rfl
  have hdrop : (("assign" : Text) ++ (target ++ .char '=' :: body)).drop "assign".length =
      target ++ .char '=' :: body := rfl
  unfold assign?
  dsimp only
  rw [hdrop, Text.takeWhile_append hrun hstops, Text.dropWhile_append hrun hstops,
    if_pos ⟨takeWhile_keyword isKeyword_assign hword, hne, h.no_hash, h.no_semicolon⟩]
  rfl

theorem of_assign? {code : Text} {form : LineForm} (h : assign? code = some form) :
    ∃ target body, form = .assign (Text.trim target) (Text.trim body) ∧ IsTarget target ∧
      .char ';' ∉ body ∧
        code = ("assign" : Text) ++ (target ++ .char '=' :: (body ++ [.char ';'])) := by
  unfold assign? at h
  dsimp only at h
  split at h
  · next hall =>
      obtain ⟨hword, -, hhash, hsemicolon⟩ := hall
      split at h
      · next rest hrest =>
          obtain ⟨body, hbody, rfl⟩ := Option.map_eq_some_iff.1 h
          obtain ⟨rfl, hnot⟩ := of_statement? hbody
          have hequals : .char '=' ∉ (code.drop "assign".length).takeWhile (· ≠ .char '=') :=
            fun hmem => by
            simpa using List.mem_takeWhile_imp hmem
          refine ⟨_, body, rfl, ⟨hequals, hhash, hsemicolon⟩, hnot, ?_⟩
          have hfront := List.takeWhile_append_dropWhile (p := Text.isWord) (l := code)
          rw [hword] at hfront
          rw [← hrest, List.takeWhile_append_dropWhile, ← hfront]
          rfl
      · cases h
  · cases h

section
variable {target value : Text}

/-- The target and the value of an assignment are read back. -/
theorem assign?_written (htight : target.IsTight) (htarget : IsTarget target)
    (hvalue : IsValue value) {b c : Nat} (hb : 0 < b) (hc : 0 < c) :
    assign? (("assign" : Text) ++
      (gapped b target ++ (Text.spaces c ++ .char '=' :: .char ' ' :: (value ++ [.char ';'])))) =
      some (.assign target value) := by
  have hspaces : ∀ {n : Nat} {d : CodePoint}, d ≠ ' ' → d ∉ Text.spaces n := fun hd hmem =>
    hd (List.eq_of_mem_replicate hmem)
  have hbefore : IsTarget (gapped b target ++ Text.spaces c) := by
    rw [gapped_eq]
    constructor
    · simp [hspaces, htarget.no_equals]
    · simp [hspaces, htarget.no_hash]
    · simp [hspaces, htarget.no_semicolon]
  have hne : gapped b target ++ Text.spaces c ≠ [] := by
    refine List.append_ne_nil_of_right_ne_nil _ fun hnil => ?_
    exact Nat.ne_of_gt hc ((List.replicate_eq_nil_iff _).1 hnil)
  have htrim : Text.trim (gapped b target ++ Text.spaces c) = target := by
    rw [gapped_eq]
    exact Text.trim_append (Text.allBlank_spaces _) htight (Text.allBlank_spaces c)
  have hstops := stops_gapped (p := Text.isWord) rfl hb target
    (stops_spaces rfl hc (.char '=' :: .char ' ' :: (value ++ [.char ';'])))
  have hread := statement?_written hvalue 0
  rw [gapped_semicolon] at hread
  rw [← List.append_assoc (gapped b target)] at hstops ⊢
  rw [assign?_append hstops hne hbefore, htrim]
  exact (Option.map_map (LineForm.assign target) Text.trim _).symm.trans
    (congrArg (Option.map (LineForm.assign target)) hread)

end

/-- The line of an assignment. -/
theorem exists_layout_assign (columns : Columns) (inParameters : Bool) (indent : Nat)
    (target value : Text) :
    ∃ b c, (0 < b ∧ 0 < c) ∧ layout columns indent inParameters (.assign target value) =
      Text.spaces (columns .assignKeyword + shiftFor indent (columns .assignKeyword)) ++
        (("assign" : Text) ++
          (gapped b target ++
            (Text.spaces c ++ .char '=' :: .char ' ' :: (value ++ [.char ';'])))) := by
  have hword := isKeyword_assign.1
  have hstart := place_start hword (columns .assignKeyword)
    (shiftFor indent (columns .assignKeyword))
  have hne := ne_of_eq_of_ne hstart (List.append_ne_nil_of_right_ne_nil _ hword)
  obtain ⟨b, hb, htarget⟩ := exists_gap hne target
    (columns .assignTarget + shiftFor indent (columns .assignKeyword))
  obtain ⟨c, hc, hequals⟩ := exists_gap (ne_nil_append hne htarget) "="
    (Layout.equalsColumn columns (shiftFor indent (columns .assignKeyword)))
  have hgap : gapped c ("=" : Text) = Text.spaces c ++ [.char '='] := gapped_of_ne_nil c (by decide)
  refine ⟨b, c, ⟨hb, hc⟩, ?_⟩
  rw [layout, Layout.assign]
  dsimp only [List.foldl_nil]
  rw [append, append, hequals, htarget, hstart, hgap]
  simp only [List.append_assoc]
  rfl

theorem isTight_assign (target value : Text) (b c : Nat) :
    Text.IsTight (("assign" : Text) ++ (gapped b target ++ (Text.spaces c ++
      .char '=' :: .char ' ' :: (value ++ [.char ';'])))) := by
  have hend : Text.Ends Text.isBlank (value ++ [.char ';']) := Text.ends_concat rfl _
  exact ⟨(starts_of_isKeyword isKeyword_assign [] _).1,
    ((((hend.append [.char '=', .char ' ']).append _).append _).append _).stops⟩

/-- The code of an assignment is read as that assignment. -/
theorem eq_assign_of_ofCode? {target value : Text} (htight : target.IsTight)
    (htarget : IsTarget target) (hvalue : IsValue value) {b c : Nat} (hb : 0 < b) (hc : 0 < c)
    {form : LineForm} (hform : ofCode? (("assign" : Text) ++ (gapped b target ++ (Text.spaces c ++
      .char '=' :: .char ' ' :: (value ++ [.char ';'])))) = some form) :
    form = .assign target value := by
  have hfirst := takeWhile_keyword isKeyword_assign (stops_gapped (p := Text.isWord) rfl hb target
    (stops_spaces rfl hc (.char '=' :: .char ' ' :: (value ++ [.char ';']))))
  have hread := assign?_written htight htarget hvalue hb hc
  rcases (of_ofCode? hform).2 with hfound | ⟨-, hfound | ⟨-, hfound | ⟨-, hfound | ⟨hnone, -⟩⟩⟩⟩
  · rw [port?_eq_none (by rw [hfirst]; exact not_mem_assign.1)] at hfound
    cases hfound
  · rw [signal?_eq_none (by rw [hfirst]; exact not_mem_assign.2.1)] at hfound
    cases hfound
  · rw [parameter?_eq_none (by rw [hfirst]; exact not_mem_assign.2.2)] at hfound
    cases hfound
  · rw [hread] at hfound
    exact (Option.some.inj hfound).symm
  · rw [hread] at hnone
    cases hnone

theorem settled_assign (columns : Columns) (inParameters : Bool) (indent : Nat) {code : Text}
    {form : LineForm} (h : assign? code = some form) :
    ∃ start code', form.layout columns indent inParameters = Text.spaces start ++ code' ∧
      Settled columns inParameters start code code' := by
  obtain ⟨target, body, rfl, htarget, hbody, hcode⟩ := of_assign? h
  obtain ⟨b, c, ⟨hb, hc⟩, hline⟩ := exists_layout_assign columns inParameters indent
    (Text.trim target) (Text.trim body)
  obtain ⟨front, back, hsplit, hfront, hback, htight⟩ := Text.exists_trim target
  refine ⟨_, _, hline, isTight_assign _ _ b c,
    hcode ▸ (starts_of_isKeyword isKeyword_assign _ _).2, ?_, ?_⟩
  · have hmild : ∀ c ∈ front, Watch.IsMild c := fun c hc => Watch.isMild_of_isBlank (hfront c hc)
    -- The line is compared piece by piece: the keyword, the target with the blanks around it, and
    -- the value.
    have hgap := Watch.MayBecome.gap (fun c hc => Watch.isMild_of_isBlank (hback c hc))
      (fun _ => Watch.isNeat_of_mem_spaces (n := c)) (c := '=') (by decide) (Text.trim target) []
    have hplain : Watch.EndsPlain (Text.trim target ++ (back ++ [.char '='])) := by
      rw [← List.append_assoc]
      exact Watch.endsPlain_append rfl
    have hvalue := mayBecome_body body 0
    rw [gapped_semicolon, Text.spaces, List.replicate_zero, List.nil_append] at hvalue
    have hall := Watch.MayBecome.append (.refl ("assign" : Text)) (Watch.endsPlain_of_isMild
      fun c hc => (isNeat_of_isKeyword isKeyword_assign c hc).1)
        (.append (.of_isMild hmild (fun _ => Watch.isNeat_of_mem_spaces
          (n := if (Text.trim target).isEmpty then 0 else b)))
          (Watch.endsPlain_of_isMild hmild) (hgap.append hplain hvalue))
    have htext : code = ("assign" : Text) ++ (front ++ (Text.trim target ++ (back ++ [.char '=']) ++
        (body ++ [.char ';']))) := by
      refine hcode.trans (congrArg (("assign" : Text) ++ ·)
        ((congrArg (· ++ .char '=' :: (body ++ [.char ';'])) hsplit).trans ?_))
      simp only [List.append_assoc, List.cons_append, List.nil_append]
    rw [htext, gapped_eq]
    simpa only [List.append_assoc, List.cons_append, List.nil_append] using hall
  · intro _ form hform
    obtain rfl := eq_assign_of_ofCode? htight htarget.trim (isValue_trim hbody) hb hc hform
    rw [← hline, layout, layout, shiftFor_add]

end LineForm
end VerilogLayout

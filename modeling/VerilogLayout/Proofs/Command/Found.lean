import VerilogLayout.Proofs.Command.Conclusion

/-!
# What is found again

A run finds out what to format from names and from the configuration file. So on files with the same
names and the same configuration file it has the same plan: `plan?_again`. All sources have the
letter of their suffix in their names, `mem_name_of_sourcesOf?`, so that the tree of a source stands
beside it wherever its path leads: `locate_sibling`.
-/

namespace VerilogLayout.Command

variable {depths : Depths} {before after : Files} {common : CommonOptions} {workspace : Workspace}

/-! ## The workspace -/

/-- A settings file is read again if its bytes are the same. -/
theorem readFile?_again {path : Path} (h : after.read? path = before.read? path) :
    Workspace.readFile? depths after path = Workspace.readFile? depths before path := by
  unfold Workspace.readFile?
  rw [h]

/-- A workspace that a file describes knows the file. -/
theorem source_of_ofFile {root path : Path}
    (h : (Workspace.ofFile depths before root path).1 = .ok workspace) :
    workspace.source = some path := by
  unfold Workspace.ofFile at h
  split at h
  · cases h
  · next data _ =>
      unfold Workspace.ofTable at h
      split at h
      · cases h
      · next entries _ =>
          obtain ⟨columns, -, h⟩ := bind_eq_ok.1 h
          obtain ⟨parser, -, h⟩ := bind_eq_ok.1 h
          obtain rfl := Except.ok.inj h
          rfl
  · cases h

section
variable (h : Files.Alike before after)
  (hconfig : ∀ config, workspace.source = some config → after.read? config = before.read? config)
include h hconfig

/-- A workspace is loaded again from files that are alike. -/
theorem load_again {root : Path} {config : Option Path}
    (hworkspace : (Workspace.load depths before root config).1 = .ok workspace) :
    (Workspace.load depths after root config).1 = .ok workspace := by
  have hfile : ∀ root path, (Workspace.ofFile depths before root path).1 = .ok workspace →
      (Workspace.ofFile depths after root path).1 = .ok workspace := by
    intro root path hworkspace
    unfold Workspace.ofFile
    rw [readFile?_again (hconfig path (source_of_ofFile hworkspace))]
    exact hworkspace
  unfold Workspace.load at hworkspace ⊢
  rw [h.resolve]
  -- The settings are read again from the same file: the one that is named, or the one the search
  -- ends at.
  cases config with
  | some path =>
      dsimp only at hworkspace ⊢
      rw [h.isFile]
      split
      · next hisFile =>
          rw [if_pos hisFile] at hworkspace
          exact hfile _ _ hworkspace
      · next hisFile =>
          rw [if_neg hisFile] at hworkspace
          cases hworkspace
  | none =>
      have hfind : Workspace.findFile? after (before.resolve root) =
          Workspace.findFile? before (before.resolve root) := by
        unfold Workspace.findFile?
        rw [funext h.isFile]
      dsimp only at hworkspace ⊢
      rw [hfind]
      cases hfound : Workspace.findFile? before (before.resolve root) with
      | none =>
          rw [hfound] at hworkspace
          exact hworkspace
      | some path =>
          rw [hfound] at hworkspace
          exact hfile _ _ hworkspace

/-- The workspace of a command is the same for files that are alike. -/
theorem workspaceOf?_again (hworkspace : workspaceOf? depths before common = .ok workspace) :
    workspaceOf? depths after common = .ok workspace := by
  have hconfigOf : configOf after common = configOf before common := by
    unfold configOf
    rw [funext h.named]
  unfold workspaceOf? at hworkspace ⊢
  rw [hconfigOf]
  exact mapError_eq_ok.2 (load_again h hconfig (mapError_eq_ok.1 hworkspace))

end

/-! ## The sources -/

/-- The same sources are found below a directory if the files are alike. -/
theorem searchDirectory_again (h : Files.Alike before after) (directory : Path) (suffix : Text) :
    searchDirectory after directory suffix = searchDirectory before directory suffix := by
  -- The search looks at the names that are found, and never at what stands there.
  have hnames : ∀ (files : Files) place, ((files.below place).filterMap fun found =>
      if Text.endsWith (found.1.getLast?.getD []) suffix then some found.1 else none) =
        ((files.below place).map Prod.fst).filterMap fun names =>
          if Text.endsWith (names.getLast?.getD []) suffix then some names else none := by
    intro files place
    rw [List.filterMap_map]
    rfl
  unfold searchDirectory
  rw [h.locate]
  cases before.locate directory with
  | error problem => rfl
  | ok place =>
      have hfound := (hnames after place).trans
        ((congrArg _ (h.below place)).trans (hnames before place).symm)
      dsimp only
      rw [hfound]

/-- The same sources are found if the files are alike. -/
theorem sourcesOf?_again (h : Files.Alike before after) (paths : List Text) :
    sourcesOf? after paths = sourcesOf? before paths := by
  have hsources : sourcesAt? after = sourcesAt? before := by
    funext text
    unfold sourcesAt?
    dsimp only
    rw [h.named, h.isFile, h.isDirectory, funext (searchDirectory_again h _)]
  unfold sourcesOf?
  rw [hsources]

/-! ## Plans -/

/-- A plan has the columns and sources that are found. -/
theorem plan?_eq_ok {files : Files} {options : FormatOptions} {plan : Plan}
    (h : plan? depths files common options = .ok plan) :
    ∃ workspace columns, workspaceOf? depths files common = .ok workspace ∧
      columnsOf? common workspace = .ok columns ∧
      sourcesOf? files options.paths = .ok plan.sources ∧
      plan.settings = settingsOf depths files options workspace columns := by
  obtain ⟨workspace, hworkspace, h⟩ := bind_eq_ok.1 h
  obtain ⟨columns, hcolumns, h⟩ := bind_eq_ok.1 h
  obtain ⟨sources, hsources, h⟩ := bind_eq_ok.1 h
  split at h
  · cases h
  · obtain rfl := Except.ok.inj h
    exact ⟨workspace, columns, hworkspace, hcolumns, hsources, rfl⟩

section
variable {files : Files} {options : FormatOptions} {plan : Plan}

/-- A run has the same plan on files with the same names and the same configuration file. -/
theorem plan?_again (h : Files.Alike before after)
    (hconfig : ∀ workspace config, workspaceOf? depths before common = .ok workspace →
      workspace.source = some config → after.read? config = before.read? config)
    (hplan : plan? depths before common options = .ok plan) :
    plan? depths after common options = .ok plan := by
  obtain ⟨workspace, columns, hworkspace, hcolumns, hsources, -⟩ := plan?_eq_ok hplan
  have hworkspace' := workspaceOf?_again h (hconfig workspace · hworkspace) hworkspace
  have hsources' := (sourcesOf?_again h options.paths).trans hsources
  have htree : treeOf after options = treeOf before options := by
    unfold treeOf
    rw [funext h.named]
  rw [plan?_eq options hworkspace hcolumns hsources] at hplan
  rw [plan?_eq options hworkspace' hcolumns hsources', htree, settingsOf, htree]
  exact hplan

/-! ## Names of sources -/

theorem mem_of_endsWith {name suffix : Text} {c : CodePoint} (h : Text.endsWith name suffix)
    (hc : c ∈ suffix) : c ∈ name :=
  (List.isSuffixOf_iff_suffix.1 h).subset hc

/-- All suffixes of sources have a letter in common. -/
theorem mem_sourceSuffix : ∀ suffix ∈ sourceSuffixes, .char 'v' ∈ suffix := by
  decide

theorem mem_name_of_sourcesAt? {text : Text} {sources : List Path}
    (h : sourcesAt? files text = .ok sources) {source : Path} (hsource : source ∈ sources) :
    .char 'v' ∈ source.name := by
  -- A source is the file that was named, or one that a search below a directory found by its
  -- suffix.
  unfold sourcesAt? at h
  dsimp only at h
  split at h
  · obtain rfl := Except.ok.inj h
    split at hsource
    · next hsuffix =>
        obtain rfl := List.mem_singleton.1 hsource
        have hmem := mem_sourceSuffix _ (List.contains_iff_mem.1 hsuffix)
        unfold Path.suffix at hmem
        split at hmem
        · cases hmem
        · split at hmem
          · exact List.mem_of_mem_drop hmem
          · cases hmem
    · cases hsource
  · split at h
    · obtain rfl := Except.ok.inj h
      obtain ⟨suffix, hsuffix, hsource⟩ := List.mem_flatMap.1 hsource
      unfold searchDirectory at hsource
      split at hsource
      · cases hsource
      · next place _ =>
          obtain ⟨names, hnames, rfl⟩ := List.mem_map.1 hsource
          obtain ⟨entry, -, hnames⟩ := List.mem_filterMap.1 (List.mem_mergeSort.1 hnames)
          obtain ⟨hends, hnames⟩ := (Option.ite_none_right_eq_some).1 hnames
          obtain rfl := Option.some.inj hnames
          have hmem := mem_of_endsWith hends (mem_sourceSuffix suffix hsuffix)
          cases hlast : entry.1.getLast? with
          | none =>
              rw [hlast] at hmem
              cases hmem
          | some last =>
              rw [hlast] at hmem
              unfold Path.name
              rw [List.getLast?_append, hlast]
              exact hmem
    · cases h

/-- A source has the letter of its suffix in its name. -/
theorem mem_name_of_sourcesOf? {paths : List Text} {sources : List Path}
    (h : sourcesOf? files paths = .ok sources) : ∀ source ∈ sources, .char 'v' ∈ source.name := by
  obtain ⟨lists, hfound, hlists⟩ := bind_eq_ok.1 h
  obtain rfl := Except.ok.inj hlists
  clear h hlists
  induction paths generalizing lists with
  | nil =>
      cases hfound
      exact fun _ h => nomatch h
  | cons text paths ih =>
      rw [List.mapM_cons] at hfound
      obtain ⟨first, hfirst, hfound⟩ := bind_eq_ok.1 hfound
      obtain ⟨rest, hrest, hfound⟩ := bind_eq_ok.1 hfound
      obtain rfl := Except.ok.inj hfound
      intro source hsource
      rw [List.flatten_cons] at hsource
      obtain hsource | hsource := List.mem_append.1 hsource
      · exact mem_name_of_sourcesAt? hfirst hsource
      · exact ih rest hrest source hsource

end

/-! ## Trees beside sources -/

/-- The tree of a source is beside the place that the source's path leads to. -/
theorem locate_sibling {files : Files} {settings : Settings} {source place : Path}
    (hname : .char 'v' ∈ source.name) (h : files.locate source = .ok place) :
    files.locate (settings.sibling source) =
      .ok (place.withName (place.name ++ settings.treeSuffix)) := by
  have hup : ∀ name : Text, .char 'v' ∈ name → name ≠ (".." : Text) := by
    rintro _ hmem rfl
    exact absurd hmem (by decide)
  obtain ⟨hsame, hlocated⟩ := Files.locate_withName h (List.ne_nil_of_mem hname)
    (hup _ hname) (hup (source.name ++ settings.treeSuffix) (List.mem_append_left _ hname))
  rw [hsame]
  exact hlocated

end VerilogLayout.Command

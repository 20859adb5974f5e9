import CallSift.Proofs.FileSystem.Normal

/-!
# Folding a path and following it

In the normal form of a path a `..` takes away the name before it. Where the path is
followed it leads to the directory above the one reached. The two are the same as long
as the name before it stands for a directory in this place; behind a link they differ.

* `folded` and `absolute?_folded`: the names of a normal form.
* `follow_folded`: folded names lead through the directories that the names lead through.
* `ClimbsDirectories` and `stat_folded`: the normal form of a path leads to what the path
  leads to, if no `..` stands behind a link.
-/
namespace CallSift.FileSystem

variable {fs : FileSystem} {workingDirectory path : Path}

/-! ## Folding names -/

/-- Takes one more name behind those kept. A `..` takes the last of them away, and is kept itself
where there is none. -/
def foldName (kept : List Bytes) (name : Bytes) : List Bytes :=
  if name = "." then kept
  else if name = ".." then if kept = [] then [".."] else kept.dropLast
  else kept ++ [name]

/-- The names of the normal form of a path. -/
def folded (workingDirectory path : Path) : List Bytes :=
  (start workingDirectory path ++ path.steps).foldl foldName []

theorem foldl_foldName_filter (kept names : List Bytes) :
    (names.filter (· ≠ ("." : Bytes))).foldl foldName kept = names.foldl foldName kept := by
  rw [List.foldl_filter]
  congr 1
  funext kept name
  by_cases hdot : name = "." <;> simp [foldName, hdot]

/-- Names without `..` are all kept, but for the dots. -/
theorem foldl_foldName_append {names : List Bytes} (h : (".." : Bytes) ∉ names)
    (kept : List Bytes) : names.foldl foldName kept = kept ++ names.filter (· ≠ ("." : Bytes)) := by
  induction names generalizing kept with
  | nil => simp
  | cons name rest ih =>
    obtain ⟨hparent, hrest⟩ := List.ne_and_not_mem_of_not_mem_cons h
    rw [List.foldl_cons, ih hrest]
    by_cases hdot : name = "." <;> simp [foldName, hdot, hparent.symm]

theorem ofName_ne_root (name : Bytes) : Component.ofName name ≠ .root := by
  unfold Component.ofName
  split <;> simp

/-- A component is folded like the name that it stands for. -/
theorem fold_ofName (kept : List Bytes) {name : Bytes} (h : name ≠ ".") :
    Path.fold (.root :: kept.map .ofName) (.ofName name) =
      .root :: (foldName kept name).map .ofName := by
  by_cases hparent : name = ".."
  · subst hparent
    rcases List.eq_nil_or_concat kept with rfl | ⟨kept, last, rfl⟩
    · rfl
    · have hlast : Path.parent? (.root :: (kept ++ [last]).map .ofName) =
          some (.root :: kept.map .ofName) := by
        rw [List.map_append, List.map_singleton, ← List.cons_append]
        exact Path.parent?_append _ (ofName_ne_root last)
      rw [List.concat_eq_append, foldName, if_neg h, if_pos rfl, if_neg (by simp),
        List.dropLast_concat]
      exact congrArg (Option.getD · _) hlast
  · simp [foldName, h, hparent, Component.ofName, Path.fold]

theorem foldl_fold_ofName {names : List Bytes} (h : ("." : Bytes) ∉ names) (kept : List Bytes) :
    (names.map Component.ofName).foldl Path.fold (.root :: kept.map .ofName) =
      .root :: (names.foldl foldName kept).map .ofName := by
  induction names generalizing kept with
  | nil => rfl
  | cons name rest ih =>
    obtain ⟨hname, hrest⟩ := List.ne_and_not_mem_of_not_mem_cons h
    rw [List.map_cons, List.foldl_cons, fold_ofName kept hname.symm, ih hrest, List.foldl_cons]

theorem filter_steps (path : Path) : path.steps.filter (· ≠ ("." : Bytes)) = path.plainNames := by
  unfold Path.steps
  split <;> simp [Path.plainNames]

/-- The names that are followed for a path are those that its normal form folds, and dots. -/
theorem folded_eq (workingDirectory path : Path) :
    folded workingDirectory path = (normalNames workingDirectory path).foldl foldName [] := by
  rw [folded, ← foldl_foldName_filter, List.filter_append, filter_steps, start, normalNames]
  split
  · rfl
  · rw [filter_steps]

/-- The normal form of a path folds its names. -/
theorem absolute?_folded (hworking : workingDirectory.isAbsolute = true)
    (hsome : path.bytes ≠ .empty) : Path.absolute? workingDirectory path =
      some (.root :: (folded workingDirectory path).map .ofName) := by
  have hplain : ("." : Bytes) ∉ normalNames workingDirectory path := by
    simp [normalNames, Path.plainNames]
  rw [absolute?_eq hworking hsome, folded_eq, ← foldl_fold_ofName hplain]
  rfl

/-! ## What is kept -/

/-- What is kept of names that lead down from the root: those on the way to where they lead, perhaps
behind a `..` that leads nowhere from the root. -/
def Keeps (kept names : List Bytes) : Prop := kept = names ∨ kept = (".." : Bytes) :: names

theorem Keeps.parent {kept names : List Bytes} (h : Keeps kept names) :
    Keeps (foldName kept "..") names.dropLast := by
  simp only [foldName, if_neg (show (".." : Bytes) ≠ "." by decide), if_pos]
  rcases h with rfl | rfl
  · by_cases hkept : kept = []
    · subst hkept
      exact .inr rfl
    · rw [if_neg hkept]
      exact .inl rfl
  · rw [if_neg (List.cons_ne_nil _ names)]
    cases names with
    | nil => exact .inl rfl
    | cons => exact .inr rfl

theorem Keeps.name {kept names : List Bytes} (h : Keeps kept names) {name : Bytes}
    (hcurrent : name ≠ ".") (hparent : name ≠ "..") :
    Keeps (foldName kept name) (names ++ [name]) := by
  simp only [foldName, if_neg hcurrent, if_neg hparent]
  exact h.imp (congrArg (· ++ [name])) (congrArg (· ++ [name]))

/-- The names of a normal form may stand in a path. -/
theorem folded_keeps (workingDirectory path : Path) : ∃ names,
    Keeps (folded workingDirectory path) names ∧ ∀ name ∈ names, IsName name := by
  have hplain : ∀ name ∈ normalNames workingDirectory path, name ≠ ".." → IsName name :=
    fun name => isName_of_normalNames
  rw [folded_eq]
  generalize normalNames workingDirectory path = all at hplain
  induction all using List.reverseRecOn with
  | nil => exact ⟨[], .inl rfl, nofun⟩
  | append_singleton before name ih =>
    obtain ⟨names, hkeeps, hnames⟩ := ih fun name hname =>
      hplain name (List.mem_append_left _ hname)
    rw [List.foldl_append]
    by_cases hparent : name = ".."
    · subst hparent
      exact ⟨names.dropLast, hkeeps.parent, fun name hname =>
        hnames name (List.dropLast_subset _ hname)⟩
    · have hname := hplain name (List.mem_append_right _ (List.mem_singleton_self name)) hparent
      refine ⟨names ++ [name], hkeeps.name hname.notCurrent hparent, fun other hother => ?_⟩
      rcases List.mem_append.mp hother with hother | hother
      · exact hnames other hother
      · rwa [List.mem_singleton.mp hother]

/-- The names that are followed for a normal form are its own; the root alone is followed like a
dot. -/
theorem fromRoot_keeps {kept names : List Bytes} (h : Keeps kept names)
    (hnames : ∀ name ∈ names, IsName name) :
    (fromRoot kept).bytes ≠ .empty ∧ (fromRoot kept).isAbsolute = true ∧
      (fromRoot kept).steps = if kept = [] then [("." : Bytes)] else kept := by
  have hbelow : ∀ directory : Path, directory.bytes ≠ .empty → directory.isAbsolute = true →
      (below directory names).bytes ≠ .empty ∧ (below directory names).isAbsolute = true :=
    fun directory hdirectory habsolute => ⟨bytes_below_ne hnames hdirectory, by
      rwa [isAbsolute_below hnames hdirectory]⟩
  rcases h with rfl | rfl
  · refine ⟨(hbelow ⟨"/"⟩ (by decide) rfl).1, (hbelow ⟨"/"⟩ (by decide) rfl).2, ?_⟩
    split
    · next hnone => subst hnone; rfl
    · next hsome => exact steps_below hnames (by decide) hsome
  · have hclimbed : (Path.mk "/..").bytes ≠ .empty := by decide
    refine ⟨(hbelow _ hclimbed rfl).1, (hbelow _ hclimbed rfl).2, ?_⟩
    rw [if_neg (List.cons_ne_nil _ names)]
    by_cases hnone : names = []
    · subst hnone
      rfl
    · exact steps_below hnames hclimbed hnone

theorem ofComponents_ofName (names : List Bytes) :
    Path.ofComponents (.root :: names.map .ofName) = fromRoot names := by
  have htext : ∀ name, (Component.ofName name).bytes = name := by
    intro name
    unfold Component.ofName
    split
    · next hparent => exact hparent.symm
    · rfl
  rw [Path.ofComponents, List.foldl_cons, List.foldl_map]
  simp only [htext]
  rfl

/-! ## Where it leads -/

/-- The names of a directory lead to it from the root, and so do those of all above it. -/
def OpenWay (fs : FileSystem) (here : Location) : Prop :=
  ∀ way, way <+: here → ∃ permissions,
    fs.follow true [] way = .place (.found way (.directory permissions))

theorem openWay_root : fs.OpenWay [] := by
  intro way hway
  obtain rfl := List.prefix_nil.mp hway
  exact ⟨_, rfl⟩

theorem OpenWay.name {here : Location} (h : fs.OpenWay here) {name : Bytes}
    {permissions : Permissions} (hname : fs.follow true here [name] =
      .place (.found (here ++ [name]) (.directory permissions))) :
    fs.OpenWay (here ++ [name]) := by
  intro way hway
  rcases List.prefix_concat_iff.mp hway with rfl | hway
  · obtain ⟨_, hhere⟩ := h here List.prefix_rfl
    exact ⟨permissions, (follow_append hhere [name]).trans hname⟩
  · exact h way hway

/-- What is kept of names leads to where an open way leads: a `..` in front stays at the root. -/
theorem Keeps.follow {kept : List Bytes} {here : Location} (h : Keeps kept here)
    (hopen : fs.OpenWay here) : ∃ permissions,
      fs.follow true [] kept = .place (.found here (.directory permissions)) := by
  rcases h with rfl | rfl
  · exact hopen kept List.prefix_rfl
  · exact hopen here List.prefix_rfl

/-- Names that lead to a directory through no link are kept as the names of this directory. -/
theorem follow_folded {names kept : List Bytes} {here there : Location}
    {permissions : Permissions} (hkeeps : Keeps kept here) (hopen : fs.OpenWay here)
    (h : fs.follow true here names = .place (.found there (.directory permissions))) :
    Keeps (names.foldl foldName kept) there ∧ fs.OpenWay there := by
  induction names generalizing kept here with
  | nil =>
    obtain ⟨rfl, -⟩ := Place.found.inj (Stop.place.inj h)
    exact ⟨hkeeps, hopen⟩
  | cons name rest ih =>
    rw [List.foldl_cons]
    by_cases hcurrent : name = "."
    · rw [FileSystem.follow, if_pos hcurrent] at h
      split at h
      · cases h
      · rw [foldName, if_pos hcurrent]
        exact ih hkeeps hopen h
    by_cases hparent : name = ".."
    · rw [FileSystem.follow, if_neg hcurrent, if_pos hparent] at h
      split at h
      · cases h
      · subst hparent
        refine ih hkeeps.parent (fun way hway => ?_) h
        exact hopen way (hway.trans (List.dropLast_prefix here))
    have hfirst : fs.follow true here [name] = _ := follow_name hcurrent hparent true []
    rw [follow_name hcurrent hparent] at h
    split at h
    · cases h
    next henter =>
    split at h
    · cases h
    next hlimit =>
    rw [if_neg henter, if_neg hlimit] at hfirst
    cases hentry : fs.get? (here ++ [name]) with
    | none => rw [hentry] at h; cases rest <;> cases h
    | some entry =>
      rw [hentry] at h hfirst
      cases entry with
      | file => cases rest <;> cases h
      | link => simp at h
      | directory => exact ih (hkeeps.name hcurrent hparent) (hopen.name hfirst) h

/-- No `..` of a path stands behind a link: the names up to the last one lead to a directory
without any. -/
def ClimbsDirectories (fs : FileSystem) (workingDirectory path : Path) : Prop :=
  ∃ before after here permissions, start workingDirectory path ++ path.steps = before ++ after ∧
    (".." : Bytes) ∉ after ∧
    fs.follow true [] before = .place (.found here (.directory permissions))

/-- Names behind a directory lead where they lead from it, through links as well. -/
theorem locate_behind {links : Nat} {here : Location} {names : List Bytes}
    {permissions : Permissions}
    (h : fs.follow true [] names = .place (.found here (.directory permissions)))
    (rest : List Bytes) :
    fs.locate true links [] (names ++ rest) = fs.locate true links here rest := by
  rw [locate, locate.eq_def fs true links here, follow_append h]

/-- The normal form of a path leads to what the path leads to, if no `..` stands behind a link and
the normal form is not too long. -/
theorem stat_folded {location : Location} {entry : Entry}
    (hclimbs : fs.ClimbsDirectories workingDirectory path)
    (hstat : fs.stat workingDirectory path = .ok (location, entry))
    (hshort : (fromRoot (folded workingDirectory path)).bytes.size < pathLimit) :
    fs.stat workingDirectory (fromRoot (folded workingDirectory path)) =
      .ok (location, entry) := by
  obtain ⟨before, after, here, permissions, hsteps, hafter, hbefore⟩ := hclimbs
  obtain ⟨-, -, hlocate⟩ := resolve_eq_ok (stat_eq_ok.mp hstat)
  obtain ⟨hkeeps, hopen⟩ := follow_folded (.inl rfl) openWay_root hbefore
  obtain ⟨_, hkept⟩ := hkeeps.follow hopen
  -- The rest is kept as it is, and leads on from the directory that the two lead to.
  have hfolded : folded workingDirectory path =
      before.foldl foldName [] ++ after.filter (· ≠ ("." : Bytes)) := by
    rw [folded, hsteps, List.foldl_append, foldl_foldName_append hafter]
  rw [hsteps, locate_behind hbefore] at hlocate
  have hplace : fs.locate true linkLimit [] (folded workingDirectory path) =
      .ok (.found location entry) := by
    rw [hfolded, locate_behind hkept]
    exact locate_dropsDots (dropsDots_plain after) hlocate
  obtain ⟨names, hnames, hproper⟩ := folded_keeps workingDirectory path
  obtain ⟨htext, habsolute, hown⟩ := fromRoot_keeps hnames hproper
  rw [stat_eq_ok, resolve_eq htext hshort, start, if_pos habsolute, hown, List.nil_append]
  split
  · next hnone => rw [← hplace, hnone]; rfl
  · exact hplace

end CallSift.FileSystem

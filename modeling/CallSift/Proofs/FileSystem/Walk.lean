import CallSift.Discovery
import CallSift.Proofs.FileSystem.Below
import Mathlib.Data.List.Sort

/-!
# Walking through a directory

A walk lists a directory, sorts what it finds by name, and goes on in each directory where
its name stands. So it meets every file that can be reached downwards without a link, once,
in the order of the locations. As the file system keeps its entries in that order, their
files are what the walk meets.

* `LeadsDown`: a file that is reached downwards.
* `ListsWay`, `Readable` and `listed_below`: the directories on a way, and all of a tree, that can
  be listed by their paths.
* `mem_filesBelow_iff`: the files of a readable tree are those that are reached.
* `sortedWalk` and `filesBelow_eq_sortedWalk`: they stand in the order of a walk, whatever
  the order in which the names of a directory are listed.
-/
namespace CallSift.FileSystem

open Location (NameBefore)

variable {fs other : FileSystem}

/-! ## Sorted lists -/

section
variable {α : Type} (before : α → α → Prop) (hirrefl : ∀ a, ¬ before a a)
  (htrans : ∀ {a b c}, before a b → before b c → before a c)
include hirrefl htrans

/-- There is only one way to put items in order. -/
theorem eq_of_pairwise_before {items others : List α} (h : items.Pairwise before)
    (hothers : others.Pairwise before) (hmem : ∀ a, a ∈ items ↔ a ∈ others) : items = others := by
  have hnodup : ∀ {items : List α}, items.Pairwise before → items.Nodup := by
    intro items h
    refine List.Pairwise.imp ?_ h
    rintro a b hab rfl
    exact hirrefl a hab
  refine List.Perm.eq_of_pairwise (fun a b _ _ hab hba => ?_) h hothers
    ((List.perm_ext_iff_of_nodup (hnodup h) (hnodup hothers)).mpr hmem)
  exact absurd (htrans hab hba) (hirrefl a)

end

/-! ## Whole file systems -/

/-- Everything stands under a name in a directory, all below the root. -/
structure IsWhole (fs : FileSystem) : Prop where
  tree : fs.IsTree []
  root : ∀ entry, ([], entry) ∉ fs.entries

theorem IsWhole.get?_of_mem (h : fs.IsWhole) {location : Location} {entry : Entry}
    (hmem : (location, entry) ∈ fs.entries) : location ≠ [] ∧ fs.get? location = some entry := by
  have hroot : location ≠ [] := by
    rintro rfl
    exact h.root entry hmem
  exact ⟨hroot, (get?_eq_some_iff hroot).mpr hmem⟩

/-- It is enough to look at the entries. -/
theorem isWhole_iff : fs.IsWhole ↔ ∀ e ∈ fs.entries,
    ∃ location name, e.1 = location ++ [name] ∧ fs.IsDirectory location ∧ IsName name := by
  constructor
  · rintro h ⟨place, entry⟩ hmem
    obtain ⟨hroot, hentry⟩ := h.get?_of_mem hmem
    rcases List.eq_nil_or_concat place with rfl | ⟨location, name, rfl⟩
    · exact absurd rfl hroot
    · rw [List.concat_eq_append] at hentry ⊢
      exact ⟨location, name, rfl, h.tree.inside location name entry List.nil_prefix hentry⟩
  · intro h
    refine ⟨⟨isDirectory_root, fun location name entry _ hentry => ?_⟩, fun entry hmem => ?_⟩
    · obtain ⟨found, last, hplace, hinside⟩ :=
        h _ ((get?_eq_some_iff (List.append_ne_nil_of_right_ne_nil location
          (List.cons_ne_nil name []))).mp hentry)
      obtain ⟨rfl, hname⟩ := List.append_inj' hplace rfl
      obtain rfl := List.singleton_inj.mp hname
      exact hinside
    · obtain ⟨location, name, hplace, -⟩ := h _ hmem
      exact absurd hplace.symm
        (List.append_ne_nil_of_right_ne_nil location (List.cons_ne_nil name []))

/-- What stands where is all there is to a file system, whatever was put there first. -/
theorem IsWhole.ext (h : fs.IsWhole) (hother : other.IsWhole)
    (hsame : ∀ location, other.get? location = fs.get? location) : other = fs := by
  have hmem : ∀ {one two : FileSystem}, one.IsWhole →
      (∀ location, two.get? location = one.get? location) →
      ∀ e, e ∈ one.entries → e ∈ two.entries := by
    intro one two hone hsame e he
    obtain ⟨hroot, hentry⟩ := hone.get?_of_mem he
    exact (get?_eq_some_iff hroot).mp ((hsame e.1).trans hentry)
  refine ext_entries (eq_of_pairwise_before (fun a b => a.1.Before b.1)
    (fun e => Location.Before.irrefl e.1) Location.Before.trans other.sorted fs.sorted
    fun e => ⟨?_, ?_⟩)
  · exact hmem hother (fun location => (hsame location).symm) e
  · exact hmem h hsame e

/-! ## Reaching files -/

/-- Names that lead from a directory to a file below it, through directories only. -/
inductive LeadsDown (fs : FileSystem) : Location → List Bytes → Prop
  | file {here : Location} {name : Bytes} {content : ByteArray} {permissions : Permissions}
    (hfile : fs.get? (here ++ [name]) = some (.file content permissions)) :
    LeadsDown fs here [name]
  | directory {here : Location} {name : Bytes} {rest : List Bytes} {permissions : Permissions}
    (hdirectory : fs.get? (here ++ [name]) = some (.directory permissions))
    (hrest : LeadsDown fs (here ++ [name]) rest) : LeadsDown fs here (name :: rest)

theorem LeadsDown.stands {here : Location} {names : List Bytes} (h : fs.LeadsDown here names) :
    names ≠ [] ∧ ∃ content permissions,
      fs.get? (here ++ names) = some (.file content permissions) := by
  induction h with
  | file hfile => exact ⟨List.cons_ne_nil _ _, _, _, hfile⟩
  | directory _ _ ih =>
    refine ⟨List.cons_ne_nil _ _, ?_⟩
    rw [List.append_cons]
    exact ih.2

/-- In a tree there are directories on the way to every file. -/
theorem leadsDown_of_file (htree : fs.IsTree []) {content : ByteArray} {permissions : Permissions} :
    ∀ {names : List Bytes} {here : Location}, names ≠ [] →
      fs.get? (here ++ names) = some (.file content permissions) → fs.LeadsDown here names
  | [], _, hsome, _ => absurd rfl hsome
  | name :: rest, here, _, hfile => by
    by_cases hrest : rest = []
    · subst hrest
      exact .file hfile
    · rw [List.append_cons] at hfile
      obtain ⟨⟨_, hdirectory⟩, -⟩ := htree.way List.nil_prefix hrest hfile
      exact .directory hdirectory (leadsDown_of_file htree hrest hfile)

/-! ## Listing directories -/

/-- A path leads to a directory that can be listed. -/
def CanList (fs : FileSystem) (workingDirectory path : Path) : Prop :=
  ∃ location permissions, fs.stat workingDirectory path = .ok (location, .directory permissions) ∧
    permissions.read = true

/-- The directory that a path leads to and all below it can be listed by their paths. -/
def Readable (fs : FileSystem) (workingDirectory place : Path) (top : Location) : Prop :=
  ∀ names, fs.IsDirectory (top ++ names) → fs.CanList workingDirectory (below place names)

/-- The directories on the way through names, the first one included, can be listed by their
paths. -/
def ListsWay (fs : FileSystem) (workingDirectory place : Path) (names : List Bytes) : Prop :=
  ∀ way rest, names = way ++ rest → rest ≠ [] → fs.CanList workingDirectory (below place way)

theorem Readable.listsWay {workingDirectory place : Path} {top : Location}
    (h : fs.Readable workingDirectory place top) (hwhole : fs.IsWhole) {names : List Bytes}
    (hleads : fs.LeadsDown top names) : fs.ListsWay workingDirectory place names := by
  rintro way rest rfl hrest
  obtain ⟨-, content, permissions, hfile⟩ := hleads.stands
  rw [← List.append_assoc] at hfile
  exact h way (hwhole.tree.way List.nil_prefix hrest hfile).1

/-- The names of a directory lead to it, through directories that can be entered, unless they lead
nowhere. -/
theorem follow_directory (htree : fs.IsTree []) {permissions : Permissions} :
    ∀ {names : List Bytes} {here : Location},
      fs.get? (here ++ names) = some (.directory permissions) →
      (∃ error, fs.follow true here names = .fault error) ∨
        fs.follow true here names = .place (.found (here ++ names) (.directory permissions)) ∧
        ∀ way rest, names = way ++ rest → rest ≠ [] →
          (fs.permissionsAt (here ++ way)).enter = true
  | [], here, hdirectory => by
    rw [List.append_nil] at hdirectory ⊢
    refine .inr ⟨by rw [follow, permissionsAt_of_get? hdirectory]; rfl, ?_⟩
    intro way rest hnames hrest
    exact absurd (List.append_eq_nil_iff.mp hnames.symm).2 hrest
  | name :: rest, here, hdirectory => by
    have hname := (htree.way List.nil_prefix (List.cons_ne_nil name rest) hdirectory).2 name
      List.mem_cons_self
    rw [List.append_cons] at hdirectory ⊢
    obtain ⟨inside, hinside⟩ : fs.IsDirectory (here ++ [name]) := by
      by_cases hrest : rest = []
      · subst hrest
        rw [List.append_nil] at hdirectory
        exact ⟨permissions, hdirectory⟩
      · exact (htree.way List.nil_prefix hrest hdirectory).1
    rw [follow_name hname.notCurrent hname.notParent, hinside]
    split
    · exact .inl ⟨_, rfl⟩
    next henter =>
    split
    · exact .inl ⟨_, rfl⟩
    rcases follow_directory htree hdirectory with hfault | ⟨hfound, hways⟩
    · exact .inl hfault
    · refine .inr ⟨hfound, fun way below hnames hbelow => ?_⟩
      cases way with
      | nil =>
        rw [List.append_nil]
        simpa using henter
      | cons first way =>
        obtain ⟨rfl, hrest⟩ := List.cons.inj hnames
        rw [List.append_cons]
        exact hways way below hrest hbelow

section
variable {workingDirectory place : Path} {top : Location} (hwhole : fs.IsWhole)
include hwhole

theorem isName_below {names : List Bytes} {entry : Entry}
    (h : fs.get? (top ++ names) = some entry) : ∀ name ∈ names, IsName name := by
  by_cases hsome : names = []
  · subst hsome
    nofun
  · exact (hwhole.tree.way List.nil_prefix hsome h).2

variable (hplace : fs.directory? workingDirectory place = some top)
include hplace

theorem isDirectory_of_directory? : fs.IsDirectory top := by
  obtain ⟨-, -, permissions, hlocate⟩ := directory?_eq_some hplace
  exact locate_directory hwhole.tree (fun _ => isDirectory_root) hlocate List.nil_prefix

/-- A directory below another can be listed by its path: the path is short, and the directories
on the way can be entered. -/
theorem listed_below {names : List Bytes} {permissions : Permissions}
    (hdirectory : fs.get? (top ++ names) = some (.directory permissions))
    (hlist : fs.CanList workingDirectory (below place names)) :
    permissions.read = true ∧ (below place names).bytes.size < pathLimit ∧
      ∀ way rest, names = way ++ rest → rest ≠ [] →
        (fs.permissionsAt (top ++ way)).enter = true := by
  obtain ⟨location, found, hstat, hread⟩ := hlist
  have hnames := isName_below hwhole hdirectory
  obtain ⟨-, hshort, hlocate⟩ := resolve_eq_ok (stat_eq_ok.mp hstat)
  obtain ⟨htext, -, before, htop⟩ := directory?_eq_some hplace
  have hstart : start workingDirectory (below place names) = start workingDirectory place := by
    rw [start, start, isAbsolute_below hnames htext]
  have hdots := (DropsDots.refl (start workingDirectory place)).append
    (dropsDots_steps (below place names))
  rw [names_below hnames htext, ← List.append_assoc] at hdots
  rw [hstart] at hlocate
  have hfound := locate_dropsDots hdots hlocate
  rcases follow_directory hwhole.tree hdirectory with ⟨error, hfault⟩ | ⟨hfollow, hways⟩
  · have herror := locate_append htop fun links => by
      rw [locate, hfault]
    cases hfound.symm.trans herror
  · have hsame := locate_append htop fun links => by
      rw [locate, hfollow]
    obtain ⟨-, hentry⟩ := Place.found.inj (Except.ok.inj (hfound.symm.trans hsame))
    obtain rfl := Entry.directory.inj hentry
    exact ⟨hread, hshort, hways⟩

/-! ## What a walk meets -/

/-- No directory keeps a walk from a file if all of them on the way can be listed. -/
theorem not_hidden {names : List Bytes} (hlists : fs.ListsWay workingDirectory place names)
    {content : ByteArray} {permissions : Permissions}
    (hfile : fs.get? (top ++ names) = some (.file content permissions)) :
    (fs.closedBelow top).any (hides · (top ++ names)) = false := by
  refine List.any_eq_false.mpr ?_
  rintro ⟨location, closed⟩ hclosed hhides
  obtain ⟨⟨way, rfl⟩, hmem, hshut⟩ := mem_closedBelow.mp hclosed
  obtain ⟨-, hdirectory⟩ := hwhole.get?_of_mem hmem
  simp only [hides, isPrefixOf_append, Bool.and_eq_true, List.isPrefixOf_iff_prefix,
    decide_eq_true_eq, List.length_append] at hhides
  obtain ⟨⟨⟨rest, rfl⟩, hlength⟩, hstops⟩ := hhides
  have hrest : rest ≠ [] := by
    rintro rfl
    simp at hlength
  obtain ⟨hread, -⟩ := listed_below hwhole hplace hdirectory (hlists way rest rfl hrest)
  simp only [hread, Bool.not_true, Bool.false_or, Bool.and_eq_true, decide_eq_true_eq,
    List.length_append] at hstops
  obtain ⟨hnot, hmore⟩ := hstops
  -- A directory stands between the closed one and the file, and cannot be listed by its path.
  rcases rest with _ | ⟨name, _ | ⟨second, rest⟩⟩
  · exact hrest rfl
  · simp [Nat.add_assoc] at hmore
  · rw [List.append_cons, ← List.append_assoc] at hfile
    obtain ⟨inside, hinside⟩ :=
      (hwhole.tree.way List.nil_prefix (List.cons_ne_nil second rest) hfile).1
    obtain ⟨-, -, hways⟩ := listed_below hwhole hplace hinside
      (hlists (way ++ [name]) (second :: rest) (List.append_cons ..) (List.cons_ne_nil second rest))
    have henter := hways way [name] rfl (List.cons_ne_nil name [])
    rw [permissionsAt_of_get? hdirectory] at henter
    simp [Entry.permissions] at henter
    simp [henter] at hnot

theorem leadsDown_of_mem_filesBelow {names : List Bytes} (h : names ∈ fs.filesBelow top) :
    fs.LeadsDown top names := by
  simp only [filesBelow, List.mem_filterMap] at h
  obtain ⟨⟨location, entry⟩, hmem, hsome⟩ := h
  cases entry with
  | directory | link => cases hsome
  | file content permissions =>
    simp only at hsome
    split at hsome
    · next hmet =>
      obtain rfl := Option.some.inj hsome
      obtain ⟨rest, rfl⟩ := List.isPrefixOf_iff_prefix.mp (Bool.and_eq_true_iff.mp hmet).1
      obtain ⟨-, hfile⟩ := hwhole.get?_of_mem hmem
      rw [List.drop_left]
      refine leadsDown_of_file hwhole.tree ?_ hfile
      rintro rfl
      obtain ⟨_, hdirectory⟩ := isDirectory_of_directory? hwhole hplace
      rw [List.append_nil, hdirectory] at hfile
      cases hfile
    · cases hsome

/-- A walk meets a file, and its path is not too long to come by it, if all directories on the way
can be listed. -/
theorem mem_filesBelow_of_leadsDown {names : List Bytes} (hleads : fs.LeadsDown top names)
    (hlists : fs.ListsWay workingDirectory place names) :
    names ∈ fs.filesBelow top ∧ isWalked place names = true := by
  obtain ⟨hsome, content, permissions, hfile⟩ := hleads.stands
  constructor
  · have hlocation : top ++ names ≠ [] := by simp [hsome]
    simp only [filesBelow, List.mem_filterMap]
    refine ⟨_, (get?_eq_some_iff hlocation).mp hfile, ?_⟩
    simp [not_hidden hwhole hplace hlists hfile]
  · rcases List.eq_nil_or_concat names with rfl | ⟨way, last, rfl⟩
    · exact absurd rfl hsome
    rw [List.concat_eq_append] at hfile hlists ⊢
    rw [← List.append_assoc] at hfile
    obtain ⟨⟨inside, hinside⟩, -⟩ := hwhole.tree.inside _ last _ List.nil_prefix hfile
    obtain ⟨-, hshort, -⟩ :=
      listed_below hwhole hplace hinside (hlists way [last] rfl (List.cons_ne_nil last []))
    rw [isWalked, List.dropLast_concat]
    exact decide_eq_true hshort

variable (hreadable : fs.Readable workingDirectory place top)
include hreadable

theorem mem_filesBelow_iff {names : List Bytes} :
    names ∈ fs.filesBelow top ↔ fs.LeadsDown top names :=
  ⟨leadsDown_of_mem_filesBelow hwhole hplace, fun hleads =>
    (mem_filesBelow_of_leadsDown hwhole hplace hleads (hreadable.listsWay hwhole hleads)).1⟩

/-- The directory of a file is listed, as its path is not too long. -/
theorem filter_isWalked :
    (fs.filesBelow top).filter (isWalked place) = fs.filesBelow top := by
  refine List.filter_eq_self.mpr fun names hmem => ?_
  have hleads := leadsDown_of_mem_filesBelow hwhole hplace hmem
  exact (mem_filesBelow_of_leadsDown hwhole hplace hleads (hreadable.listsWay hwhole hleads)).2

end

/-- Names below a directory stand in the order of the entries that they are taken from. -/
theorem pairwise_filterMap (top : Location) {entries : List (Location × Entry)}
    {names? : Location × Entry → Option Location}
    (hnames : ∀ e names, names? e = some names → e.1 = top ++ names)
    (hsorted : entries.Pairwise fun a b => a.1.Before b.1) :
    (entries.filterMap names?).Pairwise Location.Before := by
  refine List.Pairwise.filterMap _ (fun a b hab x hx y hy => ?_) hsorted
  rw [hnames a x hx, hnames b y hy] at hab
  exact hab.of_append

/-- Files stand in the order of their locations. -/
theorem filesBelow_pairwise (fs : FileSystem) (top : Location) :
    (fs.filesBelow top).Pairwise Location.Before := by
  refine pairwise_filterMap top (fun e names hsome => ?_) fs.sorted
  obtain ⟨location, entry⟩ := e
  cases entry with
  | directory | link => cases hsome
  | file =>
    simp only at hsome
    split at hsome
    · next hmet =>
      obtain rfl := Option.some.inj hsome
      obtain ⟨rest, rfl⟩ := List.isPrefixOf_iff_prefix.mp (Bool.and_eq_true_iff.mp hmet).1
      rw [List.drop_left]
    · cases hsome

/-! ## The order of a walk -/

/-- An order in which the names in each directory are listed. -/
structure Listing (fs : FileSystem) where
  names : Location → List Bytes
  nodup : ∀ here, (names here).Nodup
  complete : ∀ here name, name ∈ names here ↔ ∃ entry, fs.get? (here ++ [name]) = some entry

/-- Names can be listed in the order in which the entries are kept. -/
def inOrder (fs : FileSystem) : Listing fs where
  names here := fs.entries.filterMap fun e =>
    if e.1.dropLast = here then e.1.getLast? else none
  nodup here := by
    refine (List.Pairwise.filterMap _ (fun a b hab name hname other hother => ?_)
      fs.sorted : List.Pairwise (· ≠ ·) _)
    rintro rfl
    split at hname
    · split at hother
      · next ha hb =>
        refine hab.ne ?_
        rw [← List.dropLast_append_getLast? name hname, ← List.dropLast_append_getLast? name hother,
          ha, hb]
      · cases hother
    · cases hname
  complete here name := by
    have hlocation : here ++ [name] ≠ [] := by simp
    simp only [List.mem_filterMap, get?_eq_some_iff hlocation]
    constructor
    · rintro ⟨⟨location, entry⟩, hmem, hname⟩
      split at hname
      · next hhere =>
        subst hhere
        rw [List.dropLast_append_getLast? name hname]
        exact ⟨entry, hmem⟩
      · cases hname
    · rintro ⟨entry, hmem⟩
      exact ⟨_, hmem, by simp⟩

/-- Sorts names. -/
def sortNames (names : List Bytes) : List Bytes :=
  names.mergeSort fun a b => !decide (NameBefore b a)

theorem sortNames_pairwise {names : List Bytes} (h : names.Nodup) :
    (sortNames names).Pairwise NameBefore := by
  have hsorted : (sortNames names).Pairwise fun a b => (!decide (NameBefore b a)) = true := by
    refine List.pairwise_mergeSort (fun a b c hab hbc => ?_) (fun a b => ?_) names
    · simp only [Bool.not_eq_true', decide_eq_false_iff_not] at hab hbc ⊢
      intro hca
      by_cases hcb : NameBefore a b
      · exact hbc (hca.trans hcb)
      · obtain rfl := NameBefore.trichotomous hcb hab
        exact hbc hca
    · simp only [Bool.or_eq_true, Bool.not_eq_true', decide_eq_false_iff_not]
      by_cases hba : NameBefore b a
      · exact .inr fun hab => NameBefore.irrefl a (hab.trans hba)
      · exact .inl hba
  have hnodup : (sortNames names).Pairwise (· ≠ ·) := (names.mergeSort_perm _).nodup_iff.mpr h
  refine (hsorted.and hnodup).imp fun {a b} hab => ?_
  have hnot : ¬ NameBefore b a := by simpa using hab.1
  by_contra hba
  exact hab.2 (NameBefore.trichotomous hba hnot)

/-- The files that a walk meets: it takes the names of a directory in order, passes links over,
and goes on inside a directory before it takes the next name. It goes down so many levels. -/
def sortedWalk (fs : FileSystem) (listed : Location → List Bytes) :
    Nat → Location → List (List Bytes)
  | 0, _ => []
  | levels + 1, here =>
    (sortNames (listed here)).flatMap fun name =>
      match fs.get? (here ++ [name]) with
      | some (.file ..) => [[name]]
      | some (.directory _) => (sortedWalk fs listed levels (here ++ [name])).map (name :: ·)
      | some (.link _) | none => []

section
variable (listing : Listing fs)

theorem mem_sortedWalk : ∀ {levels : Nat} {here : Location} {names : List Bytes},
    names ∈ sortedWalk fs listing.names levels here ↔
      fs.LeadsDown here names ∧ names.length ≤ levels
  | 0, here, names => by
    simp only [sortedWalk, List.not_mem_nil, Nat.le_zero, List.length_eq_zero_iff, false_iff]
    rintro ⟨hleads, rfl⟩
    exact hleads.stands.1 rfl
  | levels + 1, here, names => by
    simp only [sortedWalk, sortNames, List.mem_flatMap, List.mem_mergeSort, listing.complete]
    constructor
    · rintro ⟨name, ⟨entry, hentry⟩, hmem⟩
      rw [hentry] at hmem
      cases entry with
      | link => cases hmem
      | file =>
        obtain rfl := List.mem_singleton.mp hmem
        exact ⟨.file hentry, by simp⟩
      | directory =>
        obtain ⟨rest, hrest, rfl⟩ := List.mem_map.mp hmem
        obtain ⟨hleads, hlevels⟩ := mem_sortedWalk.mp hrest
        exact ⟨.directory hentry hleads, Nat.succ_le_succ hlevels⟩
    · rintro ⟨hleads, hlevels⟩
      cases hleads with
      | @file _ name _ _ hfile =>
        refine ⟨name, ⟨_, hfile⟩, ?_⟩
        rw [hfile]
        exact List.mem_singleton_self _
      | @directory _ name rest _ hdirectory hrest =>
        refine ⟨name, ⟨_, hdirectory⟩, ?_⟩
        rw [hdirectory]
        exact List.mem_map_of_mem (mem_sortedWalk.mpr ⟨hrest, Nat.le_of_succ_le_succ hlevels⟩)

/-- What a walk meets under one name is all before what it meets under the next. -/
theorem sortedWalk_pairwise : ∀ (levels : Nat) (here : Location),
    (sortedWalk fs listing.names levels here).Pairwise Location.Before
  | 0, _ => .nil
  | levels + 1, here => by
    have hstarts : ∀ {name : Bytes} {names : List Bytes},
        names ∈ (match fs.get? (here ++ [name]) with
          | some (.file ..) => [[name]]
          | some (.directory _) =>
            (sortedWalk fs listing.names levels (here ++ [name])).map (name :: ·)
          | some (.link _) | none => []) → ∃ rest, names = name :: rest := by
      intro name names hmem
      split at hmem
      · exact ⟨[], List.mem_singleton.mp hmem⟩
      · obtain ⟨rest, -, rfl⟩ := List.mem_map.mp hmem
        exact ⟨rest, rfl⟩
      · cases hmem
      · cases hmem
    rw [sortedWalk, List.pairwise_flatMap]
    constructor
    · intro name _
      split
      · exact List.pairwise_singleton _ _
      · exact List.pairwise_map.mpr ((sortedWalk_pairwise levels _).imp .cons)
      · exact .nil
      · exact .nil
    · refine (sortNames_pairwise (listing.nodup here)).imp fun hbefore one hone two htwo => ?_
      obtain ⟨_, rfl⟩ := hstarts hone
      obtain ⟨_, rfl⟩ := hstarts htwo
      exact .rel hbefore

/-- The files of a readable tree stand as a walk meets them that goes down far enough. -/
theorem filesBelow_eq_sortedWalk {workingDirectory place : Path} {top : Location}
    (hwhole : fs.IsWhole) (hplace : fs.directory? workingDirectory place = some top)
    (hreadable : fs.Readable workingDirectory place top) {levels : Nat}
    (hlevels : ∀ e ∈ fs.entries, e.1.length ≤ levels) :
    fs.filesBelow top = sortedWalk fs listing.names levels top := by
  refine eq_of_pairwise_before Location.Before Location.Before.irrefl Location.Before.trans
    (filesBelow_pairwise fs top) (sortedWalk_pairwise listing levels top) fun names => ?_
  rw [mem_filesBelow_iff hwhole hplace hreadable, mem_sortedWalk]
  refine ⟨fun hleads => ⟨hleads, ?_⟩, And.left⟩
  obtain ⟨hsome, content, permissions, hfile⟩ := hleads.stands
  have hlocation : top ++ names ≠ [] := by simp [hsome]
  have hlength := hlevels _ ((get?_eq_some_iff hlocation).mp hfile)
  rw [List.length_append] at hlength
  omega

end

end CallSift.FileSystem

import CallSift.Archive.Unpack
import CallSift.Proofs.FileSystem.Below

/-!
# A place for a tree

A tree can be put under any names: each of them is a directory in the one before, the
last one holds the tree, and nothing else is there. The path that the names make leads
to it, if it is not too long.

* `subtree_under`: what stands under the names.
* `size_fromRoot`: how long the path of names is.
* `reaches_under`: the path leads to the tree.
-/
namespace CallSift.FileSystem

variable {tree : FileSystem}

/-! ## Putting a tree somewhere -/

/-- A tree in a directory. -/
def wrap (name : Bytes) (tree : FileSystem) : FileSystem where
  entries := ([name], .directory .all) :: tree.entries.filterMap fun e =>
    if e.1 = [] then none else some (name :: e.1, e.2)
  sorted := by
    refine List.pairwise_cons.mpr ⟨fun e he => ?_, ?_⟩
    · obtain ⟨below, -, hsome⟩ := List.mem_filterMap.mp he
      split at hsome
      · cases hsome
      · next hbelow =>
        obtain rfl := Option.some.inj hsome
        obtain ⟨first, rest, hcons⟩ := List.exists_cons_of_ne_nil hbelow
        rw [hcons]
        exact .cons .nil
    · refine List.Pairwise.filterMap _ (fun a b hab x hx y hy => ?_) tree.sorted
      split at hx
      · cases hx
      · split at hy
        · cases hy
        · obtain rfl := Option.some.inj hx
          obtain rfl := Option.some.inj hy
          exact .cons hab

/-- A tree in directories inside one another. -/
def under (names : Location) (tree : FileSystem) : FileSystem := names.foldr wrap tree

theorem mem_wrap {name : Bytes} {location : Location} {entry : Entry} :
    (location, entry) ∈ (wrap name tree).entries ↔
      location = [name] ∧ entry = .directory .all ∨
        ∃ rest, rest ≠ [] ∧ location = name :: rest ∧ (rest, entry) ∈ tree.entries := by
  simp only [wrap, List.mem_cons, List.mem_filterMap, Prod.mk.injEq]
  refine or_congr_right ⟨?_, ?_⟩
  · rintro ⟨⟨rest, found⟩, hmem, hsome⟩
    split at hsome
    · cases hsome
    · next hrest =>
      obtain ⟨rfl, rfl⟩ := Prod.mk.inj (Option.some.inj hsome)
      exact ⟨rest, hrest, rfl, hmem⟩
  · rintro ⟨rest, hrest, rfl, hmem⟩
    exact ⟨_, hmem, if_neg hrest⟩

theorem get?_wrap (name : Bytes) (rest : Location) :
    (wrap name tree).get? (name :: rest) = tree.get? rest := by
  ext entry
  rw [get?_eq_some_iff (by simp), mem_wrap]
  by_cases hrest : rest = []
  · subst hrest
    simp [get?, eq_comm]
  · rw [get?_eq_some_iff hrest]
    simp [hrest]

theorem subtree_wrap (name : Bytes) (top : Location) :
    (wrap name tree).subtree (name :: top) = tree.subtree top := by
  apply ext_entries
  simp only [subtree, wrap]
  rw [List.filterMap_cons_none (by simp), List.filterMap_filterMap]
  refine List.filterMap_congr fun e _ => ?_
  by_cases hlocation : e.1 = []
  · simp [hlocation]
  · simp [hlocation]

theorem subtree_under (names : Location) (tree : FileSystem) :
    (under names tree).subtree names = tree.subtree [] := by
  induction names with
  | nil => rfl
  | cons name rest ih => exact (subtree_wrap name rest).trans ih

/-- Every directory on the way can be entered. -/
theorem get?_under {names way : Location} (h : way <+: names) :
    (under names tree).get? way = some (.directory .all) := by
  induction names generalizing way with
  | nil =>
    rw [List.prefix_nil.mp h]
    rfl
  | cons name rest ih =>
    rcases List.prefix_cons_iff.mp h with rfl | ⟨way, rfl, hway⟩
    · rfl
    · exact (get?_wrap name way).trans (ih hway)

/-! ## The path of names -/

/-- The absolute path that leads through names. -/
def fromRoot (names : Location) : Path := below ⟨"/"⟩ names

theorem ofComponents_fromRoot (names : Location) :
    Path.ofComponents (.root :: names.map .normal) = fromRoot names := by
  rw [Path.ofComponents, List.foldl_cons, List.foldl_map]
  rfl

theorem fromRoot_append (names rest : Location) :
    fromRoot (names ++ rest) = below (fromRoot names) rest := List.foldl_append

section
variable {names : Location} (hnames : ∀ name ∈ names, IsName name)
include hnames

theorem bytes_fromRoot_ne : (fromRoot names).bytes ≠ .empty := bytes_below_ne hnames (by simp)

theorem isAbsolute_fromRoot : (fromRoot names).isAbsolute = true :=
  isAbsolute_below hnames (by simp)

/-- The path of a location has the length that is counted when something is unpacked there. -/
theorem size_fromRoot (hsome : names ≠ []) :
    (fromRoot names).bytes.size = Unpacking.pathLength names := by
  obtain ⟨name, rest, rfl⟩ := List.exists_cons_of_ne_nil hsome
  obtain ⟨hname, hrest⟩ := List.forall_mem_cons.mp hnames
  have htext : (Path.push ⟨"/"⟩ ⟨name⟩).bytes = "/" ++ name := by
    rw [Path.push, Path.isAbsolute_name hname, if_neg (by simp), if_pos (.inr rfl)]
  have hsize : (Path.push ⟨"/"⟩ ⟨name⟩).bytes.size = 0 + name.size + 1 := by
    have hone : ("/" : Bytes).size = 1 := rfl
    rw [htext, Bytes.size_append]
    omega
  rw [fromRoot, below_cons, size_below hrest (Path.bytes_push_ne _ hname)
    (Path.endsInSlash_push _ hname), hsize]
  rfl

theorem components_fromRoot : (fromRoot names).components = .root :: names.map .normal :=
  components_below hnames ⟨"/"⟩

/-- The path is in normal form. -/
theorem absolute?_fromRoot (workingDirectory : Path) :
    (Path.absolute? workingDirectory (fromRoot names)).map Path.ofComponents =
      some (fromRoot names) := by
  have hnormal : Path.normalize (.root :: names.map .normal) = .root :: names.map .normal :=
    Path.foldl_fold_normal [.root] names
  rw [Path.absolute?, if_neg (bytes_fromRoot_ne hnames),
    if_pos (isAbsolute_fromRoot hnames), components_fromRoot hnames, hnormal, Option.map_some,
    ofComponents_fromRoot]

/-! ## Holding a tree -/

theorem follow_open {last : Bool} {fs : FileSystem} {here : Location}
    (hshort : ∀ name ∈ names, name.size ≤ nameLimit)
    (h : ∀ way, way <+: here ++ names → fs.get? way = some (.directory .all)) :
    fs.follow last here names = .place (.found (here ++ names) (.directory .all)) := by
  have hhere : fs.permissionsAt here = .all := by
    rw [permissionsAt, h here (List.prefix_append here names)]
    rfl
  induction names generalizing here with
  | nil => rw [follow, hhere, List.append_nil]
  | cons name rest ih =>
    obtain ⟨hname, hrest⟩ := List.forall_mem_cons.mp hnames
    obtain ⟨hlimit, hlimits⟩ := List.forall_mem_cons.mp hshort
    rw [List.append_cons here name rest] at h ⊢
    have hnext := h (here ++ [name]) (List.prefix_append _ rest)
    rw [follow_name hname.notCurrent hname.notParent, hhere, if_neg (by decide),
      if_neg (Nat.not_lt.mpr hlimit), hnext]
    refine ih hrest hlimits h ?_
    rw [permissionsAt, hnext]
    rfl

/-- The tree is held where the names lead. -/
theorem reaches_under (hsome : names ≠ []) (hshort : ∀ name ∈ names, name.size ≤ nameLimit)
    (hpath : (fromRoot names).bytes.size < pathLimit) (workingDirectory : Path)
    (tree : FileSystem) :
    (under names tree).Reaches workingDirectory (fromRoot names) names (tree.subtree []) := by
  have hway : ∀ way, way <+: [] ++ names →
      (under names tree).get? way = some (.directory .all) := fun _ => get?_under
  have hsteps : (fromRoot names).steps = names := steps_below hnames (by simp) hsome
  have hplace : (under names tree).resolve true workingDirectory (fromRoot names) =
      .ok (.found names (.directory .all)) := by
    rw [resolve_eq (bytes_fromRoot_ne hnames) hpath, start, if_pos (isAbsolute_fromRoot hnames),
      hsteps, locate]
    simp only [List.nil_append, follow_open hnames hshort hway]
  refine ⟨by simp only [directory?, stat, hplace], ?_⟩
  rw [← subtree_under names tree]
  exact holds_of_get? hsome (get?_under List.prefix_rfl) rfl rfl

end

end CallSift.FileSystem

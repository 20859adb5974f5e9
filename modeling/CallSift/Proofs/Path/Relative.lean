import CallSift.Proofs.Path.Steps

/-!
# From one path to another

A path is given from a base by climbing out of what the base has beyond the longest
common prefix, and descending along what the path has beyond it. Appended to the base,
this leads back to the path.

* `exists_split`: two paths and what leads from one to the other, split at what they share.
* `foldl_fold_climbs`: as many `..` take away as many names.
* `relative_leads_back`: a path is found again from the base, and what it takes to get there.
-/
namespace CallSift.Path

/-! ## The longest common prefix -/

/-- What two lists share in front: every list that both begin with is part of it. -/
structure IsCommon (common path base : List Component) : Prop where
  ofPath : common <+: path
  ofBase : common <+: base
  longest : ∀ other, other <+: path → other <+: base → other <+: common

namespace IsCommon

variable {common path base : List Component}

theorem nil (h : ∀ first ∈ path.head?, first ∉ base.head?) : IsCommon [] path base := by
  refine ⟨List.nil_prefix, List.nil_prefix, ?_⟩
  intro other hpath hbase
  cases other with
  | nil => exact List.nil_prefix
  | cons first rest =>
    obtain ⟨_, rfl⟩ := hpath
    obtain ⟨_, rfl⟩ := hbase
    exact absurd rfl (h first rfl)

theorem cons (h : IsCommon common path base) (first : Component) :
    IsCommon (first :: common) (first :: path) (first :: base) := by
  refine ⟨(List.prefix_cons_inj first).mpr h.ofPath, (List.prefix_cons_inj first).mpr h.ofBase, ?_⟩
  intro other hpath hbase
  cases other with
  | nil => exact List.nil_prefix
  | cons own rest =>
    obtain ⟨rfl, hrest⟩ := List.cons_prefix_cons.mp hpath
    exact (List.prefix_cons_inj own).mpr
      (h.longest rest hrest (List.cons_prefix_cons.mp hbase).2)

end IsCommon

/-- What is left of two lists stands behind what they share. -/
theorem dropCommon_spec : ∀ path base : List Component, ∃ common,
    path = common ++ (dropCommon path base).1 ∧ base = common ++ (dropCommon path base).2 ∧
      IsCommon common path base
  | [], base => ⟨[], rfl, rfl, .nil (by simp)⟩
  | _ :: _, [] => ⟨[], rfl, rfl, .nil (by simp)⟩
  | first :: path, other :: base => by
    by_cases hsame : first = other
    · subst hsame
      obtain ⟨common, hpath, hbase, hcommon⟩ := dropCommon_spec path base
      rw [dropCommon, if_pos rfl]
      exact ⟨first :: common, congrArg _ hpath, congrArg _ hbase, hcommon.cons first⟩
    · rw [dropCommon, if_neg hsame]
      exact ⟨[], rfl, rfl, .nil (by simpa using Ne.symm hsame)⟩

theorem relativeTo_eq (path base : List Component) : relativeTo path base =
    ofComponents (List.replicate (dropCommon path base).2.length .parent ++
      (dropCommon path base).1) := by
  rw [← List.map_const']
  rfl

/-! ## Climbing and descending -/

/-- An absolute path that is made of the root and of names. -/
structure IsDirect (path : Path) : Prop where
  absolute : path.isAbsolute = true
  made : ∀ component ∈ path.components, component = .root ∨ ∃ name, component = .normal name

theorem IsDirect.exists_names {path : Path} (h : path.IsDirect) :
    ∃ names : List Bytes, (∀ name ∈ names, IsName name) ∧
      path.components = .root :: names.map .normal := by
  have hcomponents := components_absolute h.absolute
  have hdown : ∀ name ∈ path.plainNames, name ≠ ".." := by
    intro name hname hparent
    have hmem : .ofName name ∈ path.components := by
      rw [hcomponents]
      exact List.mem_cons_of_mem _ (List.mem_map_of_mem hname)
    rw [hparent] at hmem
    rcases h.made _ hmem with hroot | ⟨_, hnormal⟩
    · cases hroot
    · cases hnormal
  refine ⟨path.plainNames, fun name hname => isName_of_mem_plainNames hname (hdown name hname), ?_⟩
  rw [hcomponents]
  congr 1
  exact List.map_congr_left fun name hname => if_neg (hdown name hname)

/-- The path as it is given from a base. -/
def seenFrom (path base : Path) : Path := relativeTo path.components base.components

/-- Where each `..` takes away a name, what stood before these is left. -/
theorem foldl_fold_climbs (kept : List Component) (names : List Bytes) :
    (List.replicate names.length .parent).foldl fold (kept ++ names.map .normal) = kept := by
  induction names using List.reverseRecOn with
  | nil => simp
  | append_singleton names last ih =>
    have hparent : parent? (kept ++ (names ++ [last]).map .normal) =
        some (kept ++ names.map .normal) := by
      rw [List.map_append, List.map_singleton, ← List.append_assoc]
      exact parent?_append _ (by simp)
    rw [List.length_append, List.length_singleton, List.replicate_succ, List.foldl_cons, fold,
      hparent, Option.getD_some, ih]

section
variable {path base : Path} (hpath : path.IsDirect) (hbase : base.IsDirect)
include hpath

theorem normalize_direct : normalize path.components = path.components := by
  obtain ⟨names, -, hcomponents⟩ := hpath.exists_names
  rw [hcomponents]
  exact foldl_fold_normal [.root] names

include hbase

/-- Two paths split at what they share, and the steps from the one to the other. -/
theorem exists_split : ∃ (common : List Component) (down up : List Bytes),
    IsCommon common path.components base.components ∧
    path.components = common ++ down.map .normal ∧
    base.components = common ++ up.map .normal ∧
    (∀ step ∈ List.replicate up.length .parent ++ down.map .normal, Component.IsStep step) ∧
    path.seenFrom base =
      ofComponents (List.replicate up.length .parent ++ down.map .normal) := by
  obtain ⟨own, hown, hpathNames⟩ := hpath.exists_names
  obtain ⟨other, -, hbaseNames⟩ := hbase.exists_names
  obtain ⟨common, hleft, hright, hcommon⟩ := dropCommon_spec (own.map .normal) (other.map .normal)
  obtain ⟨_, down, hsplit, -, hdown⟩ := List.map_eq_append_iff.mp hleft
  obtain ⟨_, up, -, -, hup⟩ := List.map_eq_append_iff.mp hright
  refine ⟨.root :: common, down, up, ?_, ?_, ?_, ?_, ?_⟩
  · rw [hpathNames, hbaseNames]
    exact hcommon.cons .root
  · rw [hpathNames, hdown, List.cons_append, ← hleft]
  · rw [hbaseNames, hup, List.cons_append, ← hright]
  · intro step hstep
    rcases List.mem_append.mp hstep with hclimb | hnormal
    · exact .inl (List.eq_of_mem_replicate hclimb)
    · obtain ⟨name, hname, rfl⟩ := List.mem_map.mp hnormal
      exact .normal (hown name (by simp [hsplit, hname]))
  · rw [seenFrom, hpathNames, hbaseNames, relativeTo_eq, dropCommon, if_pos rfl, ← hup, ← hdown,
      List.length_map]

theorem components_push_seenFrom : (base.push (path.seenFrom base)).components =
    base.components ++ (path.seenFrom base).components := by
  obtain ⟨_, _, _, -, -, -, hsteps, hseen⟩ := exists_split hpath hbase
  rw [hseen, components_push_ofSteps hsteps (bytes_ne_of_isAbsolute hbase.absolute),
    components_ofSteps hsteps]

/-- The climbs take away what the base does not share with the path, and the names lead on. -/
theorem normalize_push_seenFrom :
    normalize (base.push (path.seenFrom base)).components = path.components := by
  obtain ⟨common, down, up, -, hown, hup, hsteps, hseen⟩ := exists_split hpath hbase
  calc normalize (base.push (path.seenFrom base)).components
      = normalize (base.components ++ (path.seenFrom base).components) := by
        rw [components_push_seenFrom hpath hbase]
    _ = (path.seenFrom base).components.foldl fold base.components := by
        rw [normalize, List.foldl_append, ← normalize, normalize_direct hbase]
    _ = (down.map .normal).foldl fold
          ((List.replicate up.length .parent).foldl fold (common ++ up.map .normal)) := by
        rw [hseen, components_ofSteps hsteps, List.foldl_append, hup]
    _ = path.components := by
        rw [foldl_fold_climbs, foldl_fold_normal, hown]

/-- **Relative paths.** Behind its base a relative path leads back to the path that it was made
from, so no two paths are the same relative to one base. It is empty exactly if the two are
equal, and has no `..` exactly if the base is a prefix of the path. The `..` stand in front, one
for each component of the base behind the longest common prefix, and then the names of the path
behind it. -/
theorem relative_leads_back :
    normalize (base.push (path.seenFrom base)).components = path.components ∧
    ((path.seenFrom base).bytes = .empty ↔ path.components = base.components) ∧
    (.parent ∉ (path.seenFrom base).components ↔ base.components <+: path.components) ∧
    (∃ (common : List Component) (names : List Bytes),
      IsCommon common path.components base.components ∧
      path.components = common ++ names.map .normal ∧
      (path.seenFrom base).components =
        List.replicate (base.components.length - common.length) .parent ++ names.map .normal) ∧
    ∀ other : Path, other.IsDirect →
      (other.seenFrom base).components = (path.seenFrom base).components →
      other.components = path.components := by
  obtain ⟨common, down, up, hcommon, hown, hup, hsteps, hseen⟩ := exists_split hpath hbase
  have hcomponents : (path.seenFrom base).components =
      List.replicate up.length .parent ++ down.map .normal := by
    rw [hseen, components_ofSteps hsteps]
  have hinside : up = [] ↔ base.components <+: path.components := by
    constructor
    · intro hnone
      rw [hup, hnone, List.map_nil, List.append_nil]
      exact hcommon.ofPath
    · -- a base that is a prefix is all that the two share
      intro hprefix
      have hlength := (hcommon.longest _ hprefix List.prefix_rfl).length_le
      rw [hup, List.length_append, List.length_map] at hlength
      exact List.eq_nil_of_length_eq_zero (by omega)
  refine ⟨normalize_push_seenFrom hpath hbase, ?_, ?_, ⟨common, down, hcommon, hown, ?_⟩, ?_⟩
  · rw [hseen, bytes_ofSteps_eq_empty hsteps]
    constructor
    · intro hnone
      obtain ⟨hnoUp, hnoDown⟩ : up = [] ∧ down = [] := by simpa using hnone
      rw [hown, hup, hnoUp, hnoDown]
    · intro hsame
      have hnoUp : up = [] := hinside.mpr (hsame ▸ List.prefix_rfl)
      have hnoDown : down = [] := by simpa [hown, hup, hnoUp] using hsame
      simp [hnoUp, hnoDown]
  · rw [← hinside, hcomponents]
    simp
  · rw [hcomponents, hup, List.length_append, List.length_map, Nat.add_sub_cancel_left]
  · -- both are what the same path behind the base leads to
    intro other hother hsame
    rw [← normalize_push_seenFrom hother hbase, ← normalize_push_seenFrom hpath hbase,
      components_push_seenFrom hother hbase, components_push_seenFrom hpath hbase, hsame]

end

/-- Two directories up, and down to a file. -/
theorem relative_climbs_and_descends :
    (Path.mk "/x/y.rb").IsDirect ∧ (Path.mk "/a/b").IsDirect ∧
    ((Path.mk "/x/y.rb").seenFrom ⟨"/a/b"⟩).text = "../../x/y.rb" ∧
    normalize ((Path.mk "/a/b").push ⟨"../../x/y.rb"⟩).components =
      (Path.mk "/x/y.rb").components := by
  have hpathComponents : (Path.mk "/x/y.rb").components =
      [.root, .normal "x", .normal "y.rb"] := by decide
  have hbaseComponents : (Path.mk "/a/b").components =
      [.root, .normal "a", .normal "b"] := by decide
  have hpath : (Path.mk "/x/y.rb").IsDirect := ⟨by decide, by simp [hpathComponents]⟩
  have hbase : (Path.mk "/a/b").IsDirect := ⟨by decide, by simp [hbaseComponents]⟩
  exact ⟨hpath, hbase, by decide, (relative_leads_back hpath hbase).1⟩

end CallSift.Path

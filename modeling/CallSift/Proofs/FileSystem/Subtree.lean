import CallSift.Proofs.FileSystem.Follow
import Mathlib.Data.List.Basic

/-!
# The tree below a directory

What stands below a directory is a file system in its own right. Wherever it is held, a
walk meets the same files in it, and their names lead to the same contents. So it does
not matter where it is held.

* `filesBelow_holds`: the files that a walk meets.
* `follow_holds`: where names lead.
* `follow_file`: the names of a file lead to it, unless they lead nowhere.
-/
namespace CallSift

namespace FileSystem

variable {fs tree : FileSystem} {top : Location}

/-- What stands below a location, as seen from there. -/
def subtree (fs : FileSystem) (top : Location) : FileSystem where
  entries := fs.entries.filterMap fun e =>
    if top.isPrefixOf e.1 && top.length < e.1.length then some (e.1.drop top.length, e.2) else none
  sorted := by
    refine List.Pairwise.filterMap _ (fun a b hab x hx y hy => ?_) fs.sorted
    split at hx
    · split at hy
      · next ha hb =>
        obtain rfl := Option.some.inj hx
        obtain rfl := Option.some.inj hy
        obtain ⟨restA, hrestA⟩ := List.isPrefixOf_iff_prefix.mp (Bool.and_eq_true_iff.mp ha).1
        obtain ⟨restB, hrestB⟩ := List.isPrefixOf_iff_prefix.mp (Bool.and_eq_true_iff.mp hb).1
        rw [← hrestA, ← hrestB] at hab ⊢
        simpa using Location.Before.of_append hab
      · cases hy
    · cases hx

theorem mem_subtree {names : Location} {entry : Entry} :
    (names, entry) ∈ (fs.subtree top).entries ↔
      names ≠ [] ∧ (top ++ names, entry) ∈ fs.entries := by
  simp only [subtree, List.mem_filterMap]
  constructor
  · rintro ⟨⟨location, found⟩, hmem, hsome⟩
    split at hsome
    · next hbelow =>
      obtain ⟨rfl, rfl⟩ := Prod.mk.inj (Option.some.inj hsome)
      obtain ⟨hbelow, hlength⟩ := Bool.and_eq_true_iff.mp hbelow
      obtain ⟨rest, rfl⟩ := List.isPrefixOf_iff_prefix.mp hbelow
      have hrest : 0 < rest.length := by simpa using hlength
      rw [List.drop_left]
      exact ⟨List.ne_nil_of_length_pos hrest, hmem⟩
    · cases hsome
  · rintro ⟨hsome, hmem⟩
    refine ⟨_, hmem, ?_⟩
    have hlength := List.length_pos_iff.mpr hsome
    simp [hlength]

theorem get?_subtree {names : Location} (h : names ≠ []) :
    (fs.subtree top).get? names = fs.get? (top ++ names) := by
  have hlocation : top ++ names ≠ [] := by simp [h]
  ext entry
  rw [get?_eq_some_iff h, get?_eq_some_iff hlocation, mem_subtree]
  exact and_iff_right h

end FileSystem

/-- Where names lead, when what they lead to is seen from above. -/
def Stop.inside (top : Location) : Stop → Stop
  | .place (.found location entry) => .place (.found (top ++ location) entry)
  | .place (.missing location) => .place (.missing (top ++ location))
  | .fault error => .fault error
  | .link directory target rest => .link (top ++ directory) target rest

namespace FileSystem

variable {fs tree : FileSystem} {top : Location}

/-- A directory that can be listed and entered holds a tree. -/
structure Holds (fs : FileSystem) (top : Location) (tree : FileSystem) : Prop where
  opens : ∀ entry, (top, entry) ∈ fs.entries →
    ∃ permissions, entry = .directory permissions ∧ permissions.read ∧ permissions.enter
  subtree : fs.subtree top = tree

theorem holds_of_get? (hsome : top ≠ []) {permissions : Permissions}
    (h : fs.get? top = some (.directory permissions)) (hread : permissions.read)
    (henter : permissions.enter) : fs.Holds top (fs.subtree top) where
  opens := by
    intro entry hentry
    obtain rfl := Option.some.inj (h.symm.trans ((get?_eq_some_iff hsome).mpr hentry))
    exact ⟨permissions, rfl, hread, henter⟩
  subtree := rfl

/-! ## The files in it -/

theorem mem_closedBelow {location : Location} {permissions : Permissions} :
    (location, permissions) ∈ fs.closedBelow top ↔
      top <+: location ∧ (location, .directory permissions) ∈ fs.entries ∧
        (permissions.read && permissions.enter) = false := by
  simp only [closedBelow, List.mem_filterMap]
  constructor
  · rintro ⟨⟨found, entry⟩, hmem, hsome⟩
    cases entry with
    | directory p =>
      simp only at hsome
      split at hsome
      · next hclosed =>
        obtain ⟨rfl, rfl⟩ := Prod.mk.inj (Option.some.inj hsome)
        obtain ⟨hbelow, hclosed⟩ := Bool.and_eq_true_iff.mp hclosed
        exact ⟨List.isPrefixOf_iff_prefix.mp hbelow, hmem, (Bool.not_eq_true' _).mp hclosed⟩
      · cases hsome
    | file | link => cases hsome
  · rintro ⟨hbelow, hmem, hclosed⟩
    refine ⟨_, hmem, ?_⟩
    simp only [List.isPrefixOf_iff_prefix.mpr hbelow, hclosed]
    rfl

theorem isPrefixOf_append (top a b : Location) :
    (top ++ a).isPrefixOf (top ++ b) = a.isPrefixOf b := by
  rw [Bool.eq_iff_iff, List.isPrefixOf_iff_prefix, List.isPrefixOf_iff_prefix,
    List.prefix_append_right_inj]

theorem hides_append (a b : Location) (permissions : Permissions) :
    hides (top ++ a, permissions) (top ++ b) = hides (a, permissions) b := by
  simp only [hides, isPrefixOf_append, List.length_append, Nat.add_lt_add_iff_left, Nat.add_assoc]

theorem any_hides_holds (h : fs.Holds top tree) (names : Location) :
    (fs.closedBelow top).any (hides · (top ++ names)) =
      (tree.closedBelow []).any (hides · names) := by
  rw [Bool.eq_iff_iff, List.any_eq_true, List.any_eq_true]
  constructor
  · rintro ⟨⟨location, permissions⟩, hclosed, hhides⟩
    obtain ⟨⟨rest, rfl⟩, hmem, hshut⟩ := mem_closedBelow.mp hclosed
    have hrest : rest ≠ [] := by
      rintro rfl
      rw [List.append_nil] at hmem
      obtain ⟨_, hdirectory, hread, henter⟩ := h.opens _ hmem
      cases hdirectory
      simp [hread, henter] at hshut
    rw [hides_append] at hhides
    refine ⟨(rest, permissions), mem_closedBelow.mpr ⟨List.nil_prefix, ?_, hshut⟩, hhides⟩
    rw [← h.subtree]
    exact mem_subtree.mpr ⟨hrest, hmem⟩
  · rintro ⟨⟨rest, permissions⟩, hclosed, hhides⟩
    obtain ⟨-, hmem, hshut⟩ := mem_closedBelow.mp hclosed
    rw [← h.subtree] at hmem
    refine ⟨(top ++ rest, permissions),
      mem_closedBelow.mpr ⟨List.prefix_append top rest, ?_, hshut⟩, ?_⟩
    · exact (mem_subtree.mp hmem).2
    · rwa [hides_append]

/-- A walk meets the files of the tree that is held. -/
theorem filesBelow_holds (h : fs.Holds top tree) : fs.filesBelow top = tree.filesBelow [] := by
  have hhides := any_hides_holds h
  obtain rfl := h.subtree
  simp only [filesBelow]
  rw [show (fs.subtree top).entries = fs.entries.filterMap _ from rfl, List.filterMap_filterMap]
  refine List.filterMap_congr fun ⟨location, entry⟩ hmem => ?_
  by_cases hbelow : top <+: location
  · obtain ⟨rest, rfl⟩ := hbelow
    by_cases hrest : rest = []
    · subst hrest
      rw [List.append_nil] at hmem ⊢
      obtain ⟨permissions, rfl, -, -⟩ := h.opens entry hmem
      simp
    · have hinside : top.isPrefixOf (top ++ rest) = true := by simp
      have hlength : decide (top.length < (top ++ rest).length) = true := by
        simpa using List.length_pos_iff.mpr hrest
      rw [hinside, hlength, hhides rest, List.drop_left]
      cases entry <;> rfl
  · rw [← isPrefixOf_eq_false] at hbelow
    cases entry <;> simp [hbelow]

/-! ## Following names in it -/

theorem permissionsAt_holds (h : fs.Holds top tree) (here : Location) :
    (fs.permissionsAt (top ++ here)).enter = (tree.permissionsAt here).enter := by
  by_cases hhere : here = []
  · subst hhere
    rw [List.append_nil]
    change (fs.permissionsAt top).enter = true
    by_cases htop : top = []
    · subst htop
      rfl
    · cases hentry : fs.get? top with
      | none => simp [permissionsAt, hentry, Permissions.all]
      | some entry =>
        obtain ⟨permissions, rfl, -, henter⟩ :=
          h.opens entry ((get?_eq_some_iff htop).mp hentry)
        rw [permissionsAt_of_get? hentry]
        exact henter
  · rw [permissionsAt, permissionsAt, ← h.subtree, get?_subtree hhere]

theorem follow_holds (h : fs.Holds top tree) : ∀ {names : List Bytes} {here : Location},
    (∀ name ∈ names, IsName name) → here ≠ [] ∨ names ≠ [] →
    fs.follow true (top ++ here) names = (tree.follow true here names).inside top
  | [], here, _, hsome => by
    have hhere : here ≠ [] := hsome.resolve_right (absurd rfl)
    rw [follow, follow, permissionsAt, permissionsAt, ← h.subtree, get?_subtree hhere]
    rfl
  | name :: rest, here, hnames, _ => by
    obtain ⟨hname, hrest⟩ := List.forall_mem_cons.mp hnames
    have hlocation : here ++ [name] ≠ [] := by simp
    have hsame : fs.get? (top ++ here ++ [name]) = tree.get? (here ++ [name]) := by
      rw [← h.subtree, get?_subtree hlocation, List.append_assoc]
    rw [follow_name hname.notCurrent hname.notParent, follow_name hname.notCurrent hname.notParent,
      permissionsAt_holds h, hsame, List.append_assoc]
    split
    · rfl
    split
    · rfl
    cases tree.get? (here ++ [name]) with
    | none => cases rest <;> rfl
    | some entry =>
      cases entry with
      | directory permissions => exact follow_holds h hrest (.inl hlocation)
      | file content permissions => cases rest <;> rfl
      | link target => cases rest <;> rfl

theorem follow_file (htree : tree.IsTree []) {content : ByteArray} {permissions : Permissions} :
    ∀ {names : List Bytes} {here : Location}, names ≠ [] →
      tree.get? (here ++ names) = some (.file content permissions) →
      (∃ error, tree.follow true here names = .fault error) ∨
        tree.follow true here names =
          .place (.found (here ++ names) (.file content permissions))
  | [], _, hsome, _ => absurd rfl hsome
  | name :: rest, here, hsome, hfile => by
    have hname := (htree.way List.nil_prefix hsome hfile).2 name List.mem_cons_self
    rw [follow_name hname.notCurrent hname.notParent]
    split
    · exact .inl ⟨_, rfl⟩
    split
    · exact .inl ⟨_, rfl⟩
    by_cases hrest : rest = []
    · subst hrest
      rw [hfile]
      exact .inr rfl
    · rw [List.append_cons here name rest] at hfile ⊢
      obtain ⟨⟨before, hdirectory⟩, -⟩ := htree.way List.nil_prefix hrest hfile
      rw [hdirectory]
      exact follow_file htree hrest hfile

/-- What stands below a directory of a tree is a tree. -/
theorem IsTree.subtree (h : fs.IsTree top) : (fs.subtree top).IsTree [] := by
  refine ⟨isDirectory_root, fun location name entry _ hentry => ?_⟩
  rw [get?_subtree (by simp), ← List.append_assoc] at hentry
  obtain ⟨⟨permissions, hdirectory⟩, hname⟩ :=
    h.inside _ name entry (List.prefix_append top location) hentry
  refine ⟨?_, hname⟩
  by_cases hlocation : location = []
  · subst hlocation
    exact isDirectory_root
  · exact ⟨permissions, (get?_subtree hlocation).trans hdirectory⟩

end FileSystem
end CallSift

import CallSift.FileSystem.Resolve
import CallSift.Proofs.FileSystem.Order
import CallSift.Proofs.Path.Names
import Mathlib.Data.List.Induction

/-!
# Changes below a directory

What is put below a directory is found there again, and everything outside stays as it
was. A tree grows when entries are put into its directories under names: it stays a
tree, and with the whole of it taken away nothing is left of the change.

* `get?_insert` and `get?_eraseBelow`: what stands where after a change.
* `FileSystem.IsTree`: every entry below a directory stands in a directory.
* `FileSystem.Grown`: a tree has grown, and nothing else has changed.
-/
namespace CallSift.FileSystem

variable {fs grown : FileSystem}

/-! ## One location -/

theorem lookup_insertEntry (location other : Location) (entry : Entry) :
    ∀ entries : List (Location × Entry), (insertEntry location entry entries).lookup other =
      if other = location then some entry else entries.lookup other
  | [] => by
    by_cases h : other = location
    · subst h
      simp [insertEntry]
    · have hne : (other == location) = false := by simpa using h
      simp [insertEntry, List.lookup_cons, hne, h]
  | (key, old) :: rest => by
    unfold insertEntry
    by_cases hother : other = location
    · subst hother
      split
      · simp
      · split
        · simp
        · next hkey =>
          have hne : (other == key) = false := by simpa using hkey
          rw [List.lookup_cons, hne]
          simpa using lookup_insertEntry other other entry rest
    · have hne : (other == location) = false := by simpa using hother
      rw [if_neg hother]
      split
      · simp [List.lookup_cons, hne]
      · split
        · next hkey =>
          obtain rfl : location = key := hkey
          simp [List.lookup_cons, hne]
        · rw [List.lookup_cons, List.lookup_cons, lookup_insertEntry location other entry rest,
            if_neg hother]

theorem get?_insert {location : Location} (h : location ≠ []) (entry : Entry) (other : Location) :
    (fs.insert location entry).get? other =
      if other = location then some entry else fs.get? other := by
  unfold get?
  by_cases hroot : other = []
  · rw [if_pos hroot, if_pos hroot, if_neg (by rw [hroot]; exact h.symm)]
  · rw [if_neg hroot, if_neg hroot]
    exact lookup_insertEntry location other entry fs.entries

/-! ## Whole trees -/

theorem isPrefixOf_eq_false {top location : Location} :
    top.isPrefixOf location = false ↔ ¬ top <+: location := by
  rw [← List.isPrefixOf_iff_prefix, Bool.not_eq_true]

theorem eraseBelow_insert {top location : Location} (h : top <+: location) (entry : Entry) :
    (fs.insert location entry).eraseBelow top = fs.eraseBelow top := by
  have hdrop : top.isPrefixOf location = true := List.isPrefixOf_iff_prefix.mpr h
  have hentries : ∀ entries : List (Location × Entry),
      (insertEntry location entry entries).filter (fun e => !top.isPrefixOf e.1) =
        entries.filter fun e => !top.isPrefixOf e.1 := by
    intro entries
    induction entries with
    | nil => simp [insertEntry, hdrop]
    | cons first rest ih =>
      unfold insertEntry
      split
      · simp [hdrop]
      · split
        · next hfirst => simp [← hfirst, hdrop]
        · rw [List.filter_cons, List.filter_cons, ih]
  exact ext_entries (hentries fs.entries)

theorem get?_eraseBelow {top other : Location} (h : ¬ top <+: other) :
    (fs.eraseBelow top).get? other = fs.get? other := by
  have hkept := isPrefixOf_eq_false.mpr h
  have hentries : ∀ entries : List (Location × Entry),
      (entries.filter fun e => !top.isPrefixOf e.1).lookup other = entries.lookup other := by
    intro entries
    induction entries with
    | nil => rfl
    | cons first rest ih =>
      by_cases hfirst : top.isPrefixOf first.1 = true
      · have hne : (other == first.1) = false := by
          rw [beq_eq_false_iff_ne]
          rintro rfl
          simp [hkept] at hfirst
        rw [List.filter_cons_of_neg (by simp [hfirst]), ih, List.lookup_cons, hne]
      · rw [List.filter_cons_of_pos (by rw [Bool.eq_false_iff.mpr hfirst]; rfl), List.lookup_cons,
          List.lookup_cons, ih]
  unfold get? eraseBelow
  rw [hentries]

theorem eraseBelow_of_free {top : Location} (h : fs.occupies top = false) :
    fs.eraseBelow top = fs := by
  refine ext_entries (List.filter_eq_self.mpr fun e he => ?_)
  rw [Bool.eq_false_iff.mpr (List.any_eq_false.mp h e he)]
  rfl

theorem get?_of_free {top location : Location} (h : fs.occupies top = false)
    (hbelow : top <+: location) (htop : top ≠ []) : fs.get? location = none := by
  refine Option.eq_none_iff_forall_ne_some.mpr fun entry hentry => ?_
  have hlocation : location ≠ [] := by
    rintro rfl
    exact htop (List.prefix_nil.mp hbelow)
  have hnone := List.any_eq_false.mp h _ ((get?_eq_some_iff hlocation).mp hentry)
  exact hnone (List.isPrefixOf_iff_prefix.mpr hbelow)

/-! ## Trees -/

/-- A directory stands at a location. -/
def IsDirectory (fs : FileSystem) (location : Location) : Prop :=
  ∃ permissions, fs.get? location = some (.directory permissions)

theorem isDirectory_root : fs.IsDirectory [] := ⟨.all, rfl⟩

theorem not_isDirectory {location : Location} {found : Option Entry}
    (h : fs.get? location = found) (hother : ∀ permissions, found ≠ some (.directory permissions)) :
    ¬ fs.IsDirectory location := by
  rintro ⟨permissions, hstands⟩
  exact hother permissions (h.symm.trans hstands)

/-- What stands below a directory stands in directories, under names. -/
structure IsTree (fs : FileSystem) (top : Location) : Prop where
  stands : fs.IsDirectory top
  inside : ∀ location name entry, top <+: location →
    fs.get? (location ++ [name]) = some entry → fs.IsDirectory location ∧ IsName name

/-- Going up from a directory of a tree leads to a directory, as long as it stays in the tree. -/
theorem IsTree.isDirectory_dropLast {top location : Location} (h : fs.IsTree top)
    (hbelow : top <+: location.dropLast) (hlocation : fs.IsDirectory location) :
    fs.IsDirectory location.dropLast := by
  rcases List.eq_nil_or_concat location with rfl | ⟨parent, name, rfl⟩
  · exact isDirectory_root
  · rw [List.concat_eq_append] at hbelow hlocation ⊢
    rw [List.dropLast_concat] at hbelow ⊢
    obtain ⟨permissions, hentry⟩ := hlocation
    exact (h.inside parent name _ hbelow hentry).1

/-- What lies on the way to an entry of a tree: a directory, and names. -/
theorem IsTree.way {top location : Location} (h : fs.IsTree top) (hbelow : top <+: location)
    {names : List Bytes} (hsome : names ≠ []) {entry : Entry}
    (hentry : fs.get? (location ++ names) = some entry) :
    fs.IsDirectory location ∧ ∀ name ∈ names, IsName name := by
  induction names using List.reverseRecOn generalizing entry with
  | nil => exact absurd rfl hsome
  | append_singleton before last ih =>
    rw [← List.append_assoc] at hentry
    obtain ⟨⟨permissions, hdirectory⟩, hlast⟩ :=
      h.inside _ last entry (hbelow.trans (List.prefix_append location before)) hentry
    by_cases hbefore : before = []
    · subst hbefore
      rw [List.append_nil] at hdirectory
      exact ⟨⟨permissions, hdirectory⟩, by simpa using hlast⟩
    · obtain ⟨hlocation, hnames⟩ := ih hbefore hdirectory
      refine ⟨hlocation, fun name hname => ?_⟩
      rcases List.mem_append.mp hname with hname | hname
      · exact hnames name hname
      · exact List.mem_singleton.mp hname ▸ hlast

theorem IsTree.isName (h : fs.IsTree []) {names : Location} (hsome : names ≠ []) {entry : Entry}
    (hentry : fs.get? names = some entry) : ∀ name ∈ names, IsName name :=
  (h.way (List.prefix_refl []) hsome (show fs.get? ([] ++ names) = some entry from hentry)).2

/-- A tree has grown, or parts of it have been replaced, and nothing outside has changed. -/
structure Grown (top : Location) (fs grown : FileSystem) : Prop where
  tree : grown.IsTree top
  root : grown.get? top = fs.get? top
  outside : grown.eraseBelow top = fs.eraseBelow top

namespace Grown

variable {top : Location}

theorem refl (h : fs.IsTree top) : Grown top fs fs := ⟨h, rfl, rfl⟩

theorem trans {last : FileSystem} (first : Grown top fs grown) (second : Grown top grown last) :
    Grown top fs last :=
  ⟨second.tree, second.root.trans first.root, second.outside.trans first.outside⟩

/-- An entry is put into a directory of the tree. A directory that stands there stays one. -/
theorem insert {parent : Location} {name : Bytes} {entry : Entry} (h : fs.IsTree top)
    (hbelow : top <+: parent) (hparent : fs.IsDirectory parent) (hname : IsName name)
    (hstays : fs.IsDirectory (parent ++ [name]) → ∃ permissions, entry = .directory permissions) :
    Grown top fs (fs.insert (parent ++ [name]) entry) := by
  have hlocation : parent ++ [name] ≠ [] := by simp
  have hdirectory : ∀ other, fs.IsDirectory other →
      (fs.insert (parent ++ [name]) entry).IsDirectory other := by
    intro other hother
    unfold IsDirectory
    rw [get?_insert hlocation]
    by_cases heq : other = parent ++ [name]
    · obtain ⟨permissions, rfl⟩ := hstays (heq ▸ hother)
      exact ⟨permissions, if_pos heq⟩
    · rw [if_neg heq]
      exact hother
  have hne : top ≠ parent ++ [name] := by
    rintro rfl
    have hlength := hbelow.length_le
    rw [List.length_append, List.length_singleton] at hlength
    omega
  refine ⟨⟨hdirectory top h.stands, ?_⟩, by rw [get?_insert hlocation, if_neg hne],
    eraseBelow_insert (hbelow.trans (List.prefix_append _ _)) _⟩
  intro location last found hlast hfound
  rw [get?_insert hlocation] at hfound
  split at hfound
  · next heq =>
    obtain ⟨rfl, hnames⟩ := List.append_inj' heq rfl
    obtain rfl := (List.cons.inj hnames).1
    exact ⟨hdirectory _ hparent, hname⟩
  · obtain ⟨hkept, hnamed⟩ := h.inside location last found hlast hfound
    exact ⟨hdirectory _ hkept, hnamed⟩

/-- What stands outside the tree stays. -/
theorem get? (h : Grown top fs grown) {other : Location} (hother : ¬ top <+: other) :
    grown.get? other = fs.get? other := by
  rw [← get?_eraseBelow hother, h.outside, get?_eraseBelow hother]

end Grown

end CallSift.FileSystem

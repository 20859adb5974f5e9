import CallSift.Proofs.FileSystem.Under

/-!
# Where the normal form of a path leads

A path without `..` has the normal form that drops its dots and puts the names of the
working directory in front of a relative one. Nothing else is folded, so the normal form
leads to the directory that the path leads to, through the same links.

* `Path.components_absolute` and `Path.components_relative`: the components are the names.
* `absolute?_eq`: the normal form folds the names, behind those of the working directory.
* `absolute?_names`: the normal form of a path without `..`.
* `stat_normal`: it leads nowhere else.
-/
namespace CallSift

/-- The component that a name other than a dot stands for. -/
def Component.ofName (name : Bytes) : Component := if name = ".." then parent else normal name

namespace Path

/-! ## Components and names -/

/-- The names of a path but for its dots. -/
def plainNames (path : Path) : List Bytes := path.names.filter (· ≠ ".")

/-- What stands between the slashes, dots and empty pieces left out. -/
def plainPieces (path : Path) : List Component :=
  (Text.splitAt Bytes.slash path.bytes.toList).filterMap Component.ofPiece?

theorem filterMap_ofPiece? (pieces : List (List UInt8)) : pieces.filterMap Component.ofPiece? =
    (((pieces.filter (· ≠ [])).map Bytes.ofList).filter (· ≠ ("." : Bytes))).map
      Component.ofName := by
  induction pieces with
  | nil => rfl
  | cons piece rest ih =>
    by_cases hempty : piece = []
    · subst hempty
      exact ih
    by_cases hcurrent : piece = [Bytes.dot]
    · subst hcurrent
      exact ih
    by_cases hparent : piece = [Bytes.dot, Bytes.dot]
    · subst hparent
      exact congrArg _ ih
    have hname : Component.ofPiece? piece = some (.normal ⟨piece⟩) :=
      ofPiece?_eq_normal.mpr ⟨⟨hempty, hcurrent, hparent⟩, rfl⟩
    have hdot : Bytes.ofList piece ≠ "." := fun hdot => hcurrent (Bytes.ext_iff.mp hdot)
    have hdots : Bytes.ofList piece ≠ ".." := fun hdots => hparent (Bytes.ext_iff.mp hdots)
    rw [List.filterMap_cons_some hname, ih]
    simp [hempty, hdot, Component.ofName, hdots]

theorem plainPieces_eq (path : Path) : path.plainPieces = path.plainNames.map .ofName :=
  filterMap_ofPiece? _

theorem mem_components_of_plainPieces {path : Path} {component : Component}
    (h : component ∈ path.plainPieces) : component ∈ path.components := by
  obtain ⟨first, rest, hpieces⟩ := Text.splitAt_eq_cons Bytes.slash path.bytes.toList
  rw [plainPieces, hpieces] at h
  rw [components, hpieces]
  by_cases hproper : first ≠ [] ∨ rest ≠ []
  · rw [componentsOf_cons hproper]
    by_cases hempty : first = []
    · subst hempty
      exact List.mem_append_right _ h
    rw [if_neg hempty, leading]
    by_cases hcurrent : first = [Bytes.dot]
    · subst hcurrent
      exact List.mem_append_right _ h
    · rw [if_neg hcurrent]
      cases hfirst : Component.ofPiece? first with
      | none => rwa [List.filterMap_cons_none hfirst] at h
      | some found => rwa [List.filterMap_cons_some hfirst] at h
  · obtain ⟨hempty, hrest⟩ := not_or.mp hproper
    rw [not_not.mp hempty, not_not.mp hrest] at h
    cases h

theorem components_absolute {path : Path} (habsolute : path.isAbsolute = true) :
    path.components = .root :: path.plainNames.map .ofName := by
  obtain ⟨cs, hcs⟩ := toList_of_isAbsolute habsolute
  obtain ⟨piece, rest, hpieces⟩ := Text.splitAt_eq_cons Bytes.slash cs
  rw [← plainPieces_eq, components, plainPieces, hcs, Text.splitAt_separator, hpieces]
  rfl

theorem components_relative {path : Path} (hsome : path.bytes ≠ .empty)
    (hrelative : path.isAbsolute = false) :
    withoutCurrent path.components = path.plainNames.map .ofName := by
  obtain ⟨c, cs, hcs⟩ : ∃ c cs, path.bytes.toList = c :: cs :=
    List.exists_cons_of_ne_nil fun hempty => hsome (Bytes.toList_eq_nil.mp hempty)
  have hslash : c ≠ Bytes.slash := by
    rintro rfl
    simp [isAbsolute, hcs] at hrelative
  obtain ⟨piece, rest, -, hpieces⟩ := Text.splitAt_cons hslash cs
  have hcomponents : path.components =
      leading (c :: piece) ++ rest.filterMap Component.ofPiece? := by
    rw [components, hcs, hpieces]
    rfl
  rw [← plainPieces_eq, plainPieces, hcomponents, hcs, hpieces, leading]
  by_cases hcurrent : c :: piece = [Bytes.dot]
  · rw [if_pos hcurrent, hcurrent]
    rfl
  · rw [if_neg hcurrent]
    by_cases hparent : c :: piece = [Bytes.dot, Bytes.dot]
    · rw [hparent]
      rfl
    · have hname := ofPiece?_eq_normal.mpr ⟨⟨List.cons_ne_nil c piece, hcurrent, hparent⟩, rfl⟩
      rw [List.filterMap_cons_some hname, hname]
      rfl

theorem isName_of_mem_plainNames {path : Path} {name : Bytes} (h : name ∈ path.plainNames)
    (hparent : name ≠ "..") : IsName name := by
  have hpiece : Component.ofName name ∈ path.plainPieces := by
    rw [plainPieces_eq]
    exact List.mem_map_of_mem h
  rw [Component.ofName, if_neg hparent] at hpiece
  exact isName_of_mem_components (mem_components_of_plainPieces hpiece)

theorem notParent_of_mem_plainNames {path : Path} (h : .parent ∉ path.components) :
    ∀ name ∈ path.plainNames, name ≠ ".." := by
  rintro name hname rfl
  refine h (mem_components_of_plainPieces ?_)
  rw [plainPieces_eq]
  exact List.mem_map_of_mem hname

end Path

namespace FileSystem

variable {fs : FileSystem} {workingDirectory path : Path}

/-! ## The normal form -/

/-- The names that the normal form of a path is made of. -/
def normalNames (workingDirectory path : Path) : List Bytes :=
  (if path.isAbsolute then [] else workingDirectory.plainNames) ++ path.plainNames

/-- Bringing a path to normal form joins its names to those of the working directory. -/
theorem absolute?_eq (hworking : workingDirectory.isAbsolute = true) (hsome : path.bytes ≠ .empty) :
    Path.absolute? workingDirectory path =
      some (Path.normalize (.root :: (normalNames workingDirectory path).map .ofName)) := by
  rw [Path.absolute?, if_neg hsome, normalNames]
  by_cases habsolute : path.isAbsolute = true
  · rw [if_pos habsolute, if_pos habsolute, Path.components_absolute habsolute]
    rfl
  · have hrelative := Bool.eq_false_iff.mpr habsolute
    rw [if_neg habsolute, if_neg habsolute, Path.components_absolute hworking,
      Path.components_relative hsome hrelative, List.cons_append, ← List.map_append]

theorem isName_of_normalNames {name : Bytes} (h : name ∈ normalNames workingDirectory path)
    (hparent : name ≠ "..") : IsName name := by
  rcases List.mem_append.mp h with h | h
  · split at h
    · cases h
    · exact Path.isName_of_mem_plainNames h hparent
  · exact Path.isName_of_mem_plainNames h hparent

/-- A path that no `..` leads back on, seen from a working directory of that kind. -/
structure IsPlain (workingDirectory path : Path) : Prop where
  absolute : workingDirectory.isAbsolute = true
  working : .parent ∉ workingDirectory.components
  nonempty : path.bytes ≠ .empty
  plain : .parent ∉ path.components

section
variable (h : IsPlain workingDirectory path)
include h

theorem notParent_of_mem_normalNames :
    ∀ name ∈ normalNames workingDirectory path, name ≠ ".." := by
  intro name hname
  rcases List.mem_append.mp hname with hname | hname
  · split at hname
    · cases hname
    · exact Path.notParent_of_mem_plainNames h.working name hname
  · exact Path.notParent_of_mem_plainNames h.plain name hname

/-- Nothing is folded in a path without `..`. -/
theorem absolute?_names : Path.absolute? workingDirectory path =
    some (.root :: (normalNames workingDirectory path).map .normal) := by
  have hnormal : (normalNames workingDirectory path).map Component.ofName =
      (normalNames workingDirectory path).map .normal :=
    List.map_congr_left fun name hname => if_neg (notParent_of_mem_normalNames h name hname)
  rw [absolute?_eq h.absolute h.nonempty, hnormal]
  exact congrArg some (Path.foldl_fold_normal [.root] _)

theorem isName_of_mem_normalNames : ∀ name ∈ normalNames workingDirectory path, IsName name :=
  fun name hname => isName_of_normalNames hname (notParent_of_mem_normalNames h name hname)

end

/-! ## Where it leads -/

theorem dropsDots_plain (names : List Bytes) : DropsDots names (names.filter (· ≠ ".")) := by
  induction names with
  | nil => exact .nil
  | cons name rest ih =>
    by_cases hdot : name = "."
    · subst hdot
      exact .dot ih
    · rw [List.filter_cons_of_pos (by simpa using hdot)]
      exact .keep name ih

theorem dropsDots_plainNames (path : Path) : DropsDots path.steps path.plainNames := by
  have hdots := dropsDots_plain path.steps
  unfold Path.steps at hdots ⊢
  split at hdots
  · next hslash => simpa [hslash, Path.plainNames] using hdots
  · next hslash => simpa [hslash, Path.plainNames] using hdots

/-- The names that a path is followed by can do without their dots. -/
theorem locate_normalNames {location : Location} {entry : Entry}
    (h : fs.stat workingDirectory path = .ok (location, entry)) :
    fs.locate true linkLimit [] (normalNames workingDirectory path) =
      .ok (.found location entry) := by
  obtain ⟨-, -, hlocate⟩ := resolve_eq_ok (stat_eq_ok.mp h)
  refine locate_dropsDots (DropsDots.append ?_ (dropsDots_plainNames path)) hlocate
  unfold start
  split
  · exact .nil
  · exact dropsDots_plainNames workingDirectory

/-- The normal form of a path leads to the place that the path leads to, if it can be followed at
all. -/
theorem stat_normal (h : IsPlain workingDirectory path) {location other : Location}
    {entry found : Entry} (hstat : fs.stat workingDirectory path = .ok (location, entry))
    (hnormal : fs.stat workingDirectory (fromRoot (normalNames workingDirectory path)) =
      .ok (other, found)) : other = location ∧ found = entry := by
  have hnames := isName_of_mem_normalNames h
  have hplain : (fromRoot (normalNames workingDirectory path)).plainNames =
      normalNames workingDirectory path := by
    rw [Path.plainNames, fromRoot, names_below hnames (by simp)]
    exact List.filter_eq_self.mpr fun name hname => by simpa using (hnames name hname).notCurrent
  have hlocate := locate_normalNames hnormal
  rw [normalNames, if_pos (isAbsolute_fromRoot hnames), List.nil_append, hplain,
    locate_normalNames hstat] at hlocate
  obtain ⟨hlocation, hentry⟩ := Place.found.inj (Except.ok.inj hlocate)
  exact ⟨hlocation.symm, hentry.symm⟩

end FileSystem
end CallSift

import CallSift.Proofs.Path.Relative
import CallSift.Proofs.Path.Shown
import CallSift.Proofs.Record.FileInfo

/-!
# What a record says of its file

Where a file stands is said in several ways: by its name, by its directory, and by itself,
the last two as they are seen from a root. Each of the two is found from the root on its
own, but they share the same with it, as long as the file does not stand on the way to the
root, so the file is seen as its directory is, and the name behind it.

* `relativeTo_concat`: one more name, seen from elsewhere.
* `relativeTo_eq_empty_iff`: what is seen as the empty path.
* `FileInfo.Locates`: a description in which all parts agree.
* `FileInfo.locates_direct` and `FileInfo.locates_below`: what is said of a file agrees.
-/
namespace CallSift

namespace Path

/-! ## One more name -/

/-- What stands behind a path comes behind what is left of it, unless the whole is shared. -/
theorem dropCommon_concat (last : Component) : ∀ path base : List Component,
    ¬ path ++ [last] <+: base →
    dropCommon (path ++ [last]) base =
      ((dropCommon path base).1 ++ [last], (dropCommon path base).2)
  | [], [], _ => rfl
  | [], other :: base, h => by
    have hne : last ≠ other := by
      rintro rfl
      exact h (List.prefix_append [last] base)
    rw [List.nil_append, dropCommon, if_neg hne]
    rfl
  | _ :: _, [], _ => rfl
  | first :: path, other :: base, h => by
    rw [List.cons_append, dropCommon, dropCommon]
    by_cases hsame : first = other
    · subst hsame
      rw [if_pos rfl, if_pos rfl]
      exact dropCommon_concat last path base fun hprefix =>
        h ((List.prefix_cons_inj first).mpr hprefix)
    · rw [if_neg hsame, if_neg hsame]
      rfl

theorem ofComponents_concat (components : List Component) (last : Component) :
    ofComponents (components ++ [last]) = (ofComponents components).push ⟨last.bytes⟩ := by
  rw [ofComponents, List.foldl_append]
  rfl

/-- A path that is not on the way to the base is seen as the one before it is seen, with what it
has beyond that behind. -/
theorem relativeTo_concat {path base : List Component} {last : Component}
    (h : ¬ path ++ [last] <+: base) :
    relativeTo (path ++ [last]) base = (relativeTo path base).push ⟨last.bytes⟩ := by
  rw [relativeTo_eq, relativeTo_eq, dropCommon_concat last path base h, ← List.append_assoc,
    ofComponents_concat]

/-! ## Steps as a text -/

section
variable {steps : List Component} (hsteps : ∀ step ∈ steps, step.IsStep)
include hsteps

theorem endsInSlash_ofSteps : (ofComponents steps).endsInSlash = false := by
  rcases List.eq_nil_or_concat steps with rfl | ⟨before, last, rfl⟩
  · rfl
  · have hlast : last.IsStep := hsteps last (by simp)
    rw [List.concat_eq_append, ofComponents_concat]
    exact endsInSlash_push_piece _ hlast.nonempty hlast.noSlash

/-- A dot is no step, and nothing else is shown as one. -/
theorem text_ofSteps_ne_dot : (ofComponents steps).text ≠ "." := by
  intro hdot
  have hbytes : (ofComponents steps).bytes = "." := by
    have hshown := congrArg Bytes.ofText hdot
    rw [Path.text, Bytes.ofText_text] at hshown
    exact Bytes.ext ((shown_eq_iff (by simp) rfl).mp (Bytes.ext_iff.mp hshown))
  have hcurrent : (ofComponents steps).components = [.current] := by
    rw [components, hbytes]
    decide
  rw [components_ofSteps hsteps] at hcurrent
  rcases hsteps .current (by rw [hcurrent]; simp) with hparent | ⟨name, -, hname⟩
  · cases hparent
  · cases hname

end

/-! ## Seen from a base -/

section
variable {path base : List Component} (h : ∀ step ∈ (dropCommon path base).1, step.IsStep)
include h

theorem isStep_relativeTo : ∀ step ∈ List.replicate (dropCommon path base).2.length .parent ++
    (dropCommon path base).1, Component.IsStep step := by
  intro step hstep
  rcases List.mem_append.mp hstep with hclimb | hdown
  · exact .inl (List.eq_of_mem_replicate hclimb)
  · exact h step hdown

theorem relativeTo_eq_empty_iff : (relativeTo path base).bytes = .empty ↔ path = base := by
  rw [relativeTo_eq, bytes_ofSteps_eq_empty (isStep_relativeTo h)]
  constructor
  · intro hnone
    obtain ⟨common, hpath, hbase, -⟩ := dropCommon_spec path base
    obtain ⟨hup, hdown⟩ := List.append_eq_nil_iff.mp hnone
    rw [hdown] at hpath
    rw [List.replicate_eq_nil_iff, List.length_eq_zero_iff] at hup
    rw [hup] at hbase
    exact hpath.trans hbase.symm
  · rintro rfl
    have hsame := dropCommon_append path []
    rw [List.append_nil] at hsame
    simp [hsame]

end

end Path

/-- Names lead to a file from a root in normal form. -/
structure Path.IsBelow (file root : Path) : Prop where
  absolute : root.isAbsolute = true
  normal : Path.normalize root.components = root.components
  down : ∃ names : List Bytes, names ≠ [] ∧ (∀ name ∈ names, IsName name) ∧
    file.components = root.components ++ names.map .normal

/-! ## Descriptions that agree -/

/-- A description of a file that is seen from a root, in which all parts agree. -/
structure FileInfo.Locates (info : FileInfo) (file root : Path) : Prop where
  named : file.fileName?.map Bytes.text = some info.filename
  /-- The directory, unless it is the root, stands in front of the name. -/
  joined : info.file =
    if info.relpath = "." then info.filename else info.relpath ++ "/" ++ info.filename
  /-- The directory is a dot if it is the root, and then only. -/
  inRoot : info.relpath = "." ↔ Path.parent? file.components = some root.components
  /-- Behind the root the path of the file is found again, as it is shown. -/
  leadsBack :
    Path.normalize ((Path.mk info.directory).push ⟨info.file⟩).components =
      (Path.mk file.text).components
  /-- This is the path of the file itself exactly if it is a text. -/
  itself :
    Path.normalize ((Path.mk info.directory).push ⟨info.file⟩).components = file.components ↔
      file.bytes.IsText

namespace FileInfo

open CallSift.Path

variable {file root : Path}

/-- The description of a file that is not on the way to the root, by what its directory has
beyond what it shares with the root. -/
theorem locates_of_steps {above : List Component} {name : Bytes}
    (hfile : file.components = above ++ [.normal name])
    (hoff : ¬ file.components <+: root.components)
    (hsteps : ∀ step ∈ (dropCommon above root.components).1, step.IsStep)
    (hroot : root.bytes ≠ .empty)
    (hback : Path.normalize (root.push (file.seenFrom root)).components = file.components) :
    (of file root).Locates file root ∧ (of file root).file = (file.seenFrom root).text := by
  have hname : IsName name := isName_of_mem_components (by rw [hfile]; simp)
  have hfileName : file.fileName? = some name := by
    simp [fileName?, fileNameOf?, hfile, Component.name?]
  have hparent : parent? file.components = some above := by
    rw [hfile]
    exact parent?_append above (by simp)
  let directory := relativeTo above root.components
  have hdirectory : directory.text ≠ "." ∧ directory.endsInSlash = false := by
    simp only [directory, relativeTo_eq]
    exact ⟨text_ofSteps_ne_dot (isStep_relativeTo hsteps),
      endsInSlash_ofSteps (isStep_relativeTo hsteps)⟩
  have hseen : file.seenFrom root = directory.push ⟨name⟩ := by
    rw [hfile] at hoff
    rw [seenFrom, hfile]
    exact relativeTo_concat hoff
  have hshown : (of file root).file = (file.seenFrom root).text := by
    have hsome : (file.seenFrom root).bytes ≠ .empty := hseen ▸ bytes_push_ne directory hname
    exact if_neg hsome
  have hrelpath : (of file root).relpath = shown directory := by
    simp only [of, hparent, Option.getD_some, directory]
  have hdot : (of file root).relpath = "." ↔ directory.bytes = .empty := by
    rw [hrelpath, shown]
    by_cases hempty : directory.bytes = .empty <;> simp [hempty, hdirectory.1]
  have hseenSteps : ∀ step ∈ (dropCommon file.components root.components).1, step.IsStep := by
    rw [hfile] at hoff ⊢
    rw [dropCommon_concat _ above _ hoff]
    intro step hstep
    rcases List.mem_append.mp hstep with hstep | hstep
    · exact hsteps step hstep
    · exact List.mem_singleton.mp hstep ▸ .normal hname
  have hrelative : (file.seenFrom root).isAbsolute = false := by
    rw [seenFrom, relativeTo_eq]
    exact isAbsolute_ofSteps (isStep_relativeTo hseenSteps)
  have hleads : Path.normalize ((Path.mk (of file root).directory).push
      ⟨(of file root).file⟩).components = (Path.mk file.text).components := by
    rw [hshown]
    change Path.normalize (root.asShown.push (file.seenFrom root).asShown).components =
      file.asShown.components
    rw [components_push_asShown hroot hrelative, normalize_shown, hback, components_asShown]
  refine ⟨⟨?_, ?_, ?_, hleads, ?_⟩, hshown⟩
  · simp [of, hfileName]
  · have hfilename : (of file root).filename = name.text := by simp [of, hfileName]
    rw [hshown, hseen, hfilename]
    by_cases hempty : directory.bytes = .empty
    · rw [if_pos (hdot.mpr hempty), push, isAbsolute_name hname, if_neg (by simp),
        if_pos (.inl hempty), hempty, Path.text, Bytes.empty_append]
    · rw [if_neg (mt hdot.mp hempty), Path.text, bytes_push_behind hempty hdirectory.2 hname,
        Bytes.text_append_slash, hrelpath, shown, if_neg hempty, Path.text]
  · rw [hdot, relativeTo_eq_empty_iff hsteps, hparent, Option.some.injEq]
  · rw [hleads]
    exact asShown_components_iff

/-- A path that is made of names is described so from every root of this kind. -/
theorem locates_direct (hfile : file.IsDirect) (hroot : root.IsDirect)
    (hname : file.fileName?.isSome = true) (hoff : ¬ file.components <+: root.components) :
    (of file root).Locates file root := by
  obtain ⟨own, hown, hcomponents⟩ := hfile.exists_names
  obtain ⟨other, -, hbase⟩ := hroot.exists_names
  obtain ⟨front, last, rfl⟩ : ∃ front last, own = front ++ [last] := by
    rcases List.eq_nil_or_concat own with rfl | ⟨front, last, hconcat⟩
    · simp [fileName?, fileNameOf?, hcomponents, Component.name?] at hname
    · exact ⟨front, last, hconcat.trans List.concat_eq_append⟩
  have hsplit : file.components = (.root :: front.map .normal) ++ [.normal last] := by
    rw [hcomponents]
    simp
  refine (locates_of_steps hsplit hoff ?_ (bytes_ne_of_isAbsolute hroot.absolute)
    (normalize_push_seenFrom hfile hroot)).1
  -- the root is shared, and what stands behind it are names
  rw [hbase, dropCommon, if_pos rfl]
  obtain ⟨common, hfront, -⟩ := dropCommon_spec (front.map .normal) (other.map .normal)
  intro step hstep
  have hmem : step ∈ front.map Component.normal := by
    rw [hfront]
    exact List.mem_append_right common hstep
  obtain ⟨name, hfrontName, rfl⟩ := List.mem_map.mp hmem
  exact .normal (hown name (List.mem_append_left _ hfrontName))

/-- A file below a root in normal form is described so, and no `..` leads to it. -/
theorem locates_below (h : file.IsBelow root) :
    (of file root).Locates file root ∧ .parent ∉ (Path.mk (of file root).file).components := by
  obtain ⟨hroot, hnormal, names, hsome, hnames, hfile⟩ := h
  have hsteps : ∀ step ∈ names.map Component.normal, step.IsStep := by
    intro step hstep
    obtain ⟨name, hname, rfl⟩ := List.mem_map.mp hstep
    exact .normal (hnames name hname)
  have hseen : file.seenFrom root = ofComponents (names.map .normal) := by
    rw [seenFrom, hfile, relativeTo_append]
  have hback : Path.normalize (root.push (file.seenFrom root)).components = file.components := by
    rw [hseen, components_push_ofSteps hsteps (bytes_ne_of_isAbsolute hroot), Path.normalize,
      List.foldl_append, ← Path.normalize, hnormal, foldl_fold_normal, hfile]
  have hoff : ¬ file.components <+: root.components := by
    intro hprefix
    have hlength := hprefix.length_le
    rw [hfile, List.length_append, List.length_map] at hlength
    exact hsome (List.eq_nil_of_length_eq_zero (by omega))
  obtain ⟨front, last, rfl⟩ : ∃ front last, names = front ++ [last] :=
    ⟨_, _, (List.dropLast_concat_getLast hsome).symm⟩
  have hsplit : file.components = (root.components ++ front.map .normal) ++ [.normal last] := by
    rw [hfile]
    simp
  have hdown : ∀ step ∈ (dropCommon (root.components ++ front.map .normal) root.components).1,
      step.IsStep := by
    rw [dropCommon_append]
    intro step hstep
    obtain ⟨name, hname, rfl⟩ := List.mem_map.mp hstep
    exact .normal (hnames name (List.mem_append_left _ hname))
  obtain ⟨hlocates, hshown⟩ :=
    locates_of_steps hsplit hoff hdown (bytes_ne_of_isAbsolute hroot) hback
  refine ⟨hlocates, ?_⟩
  rw [hshown]
  change .parent ∉ (file.seenFrom root).asShown.components
  rw [components_asShown, hseen, components_ofSteps hsteps]
  simp [Component.shown]

end FileInfo

end CallSift

import CallSift.Proofs.Analysis.Accounting
import CallSift.Proofs.Archive.Unpack
import CallSift.Proofs.FileSystem.Fold
import CallSift.Proofs.FileSystem.Walk

/-!
# What an analysis looks at is whole

The directory that an archive is unpacked into is made at a free place, and a path leads to
such a place only by a name in a directory. What is unpacked there is a tree and leaves the
rest alone, so everything still stands under a name in a directory.

* `locate_free`: where a free place is.
* `Grown.isWhole`: a whole file system stays whole when a tree in it grows.
* `LooksAt.isWhole`: so an archive is unpacked into a whole file system.
-/
namespace CallSift

namespace FileSystem

/-- Names to follow: but for dots they may stand in a path. -/
def AreSteps (names : List Bytes) : Prop :=
  ∀ name ∈ names, name ≠ "." → name ≠ ".." → IsName name

theorem areSteps_steps (path : Path) : AreSteps path.steps := by
  intro name hname hcurrent hparent
  have hplain : name ∈ path.plainNames := by
    rw [← filter_steps]
    exact List.mem_filter.mpr ⟨hname, decide_eq_true hcurrent⟩
  exact Path.isName_of_mem_plainNames hplain hparent

theorem AreSteps.append {names rest : List Bytes} (h : AreSteps names) (hrest : AreSteps rest) :
    AreSteps (names ++ rest) := by
  intro name hname
  rcases List.mem_append.mp hname with hname | hname
  · exact h name hname
  · exact hrest name hname

theorem areSteps_start (workingDirectory path : Path) :
    AreSteps (start workingDirectory path) := by
  unfold start
  split
  · nofun
  · exact areSteps_steps workingDirectory

/-- A location is under a name in a directory. -/
def IsInside (fs : FileSystem) (location : Location) : Prop :=
  ∃ above name, location = above ++ [name] ∧ fs.IsDirectory above ∧ IsName name

end FileSystem

open FileSystem

/-- A free place at which names stop is inside a directory, and so is a link. -/
def Stop.IsInside (fs : FileSystem) : Stop → Prop
  | .place (.missing location) => fs.IsInside location
  | .link directory _ rest => fs.IsDirectory directory ∧ AreSteps rest
  | _ => True

namespace FileSystem

variable {fs grown : FileSystem}

/-! ## Free places -/

theorem follow_isInside (htree : fs.IsTree []) (last : Bool) :
    ∀ {names : List Bytes} {here : Location}, fs.IsDirectory here → AreSteps names →
      (fs.follow last here names).IsInside fs
  | [], _, _, _ => trivial
  | name :: rest, here, hhere, hnames => by
    obtain ⟨hname, hrest⟩ := List.forall_mem_cons.mp hnames
    by_cases hcurrent : name = "."
    · rw [follow, if_pos hcurrent]
      split
      · trivial
      · exact follow_isInside htree last hhere hrest
    by_cases hparent : name = ".."
    · rw [follow, if_neg hcurrent, if_pos hparent]
      split
      · trivial
      · exact follow_isInside htree last (htree.isDirectory_dropLast List.nil_prefix hhere) hrest
    rw [follow_name hcurrent hparent]
    split
    · trivial
    split
    · trivial
    cases hentry : fs.get? (here ++ [name]) with
    | none =>
      cases rest with
      | nil => exact ⟨here, name, rfl, hhere, hname hcurrent hparent⟩
      | cons => trivial
    | some entry =>
      cases entry with
      | directory permissions => exact follow_isInside htree last ⟨permissions, hentry⟩ hrest
      | file => cases rest <;> trivial
      | link target =>
        simp only
        split
        · trivial
        · exact ⟨hhere, hrest⟩

/-- Names that lead to a free place lead to a name in a directory. -/
theorem locate_free (htree : fs.IsTree []) {last : Bool} {links : Nat} {here : Location}
    {names : List Bytes} {location : Location} (hhere : fs.IsDirectory here)
    (hnames : AreSteps names) (h : fs.locate last links here names = .ok (.missing location)) :
    fs.IsInside location := by
  have hstop := follow_isInside htree last hhere hnames
  unfold locate at h
  cases hfollow : fs.follow last here names with
  | place place =>
    rw [hfollow] at h hstop
    obtain rfl := Except.ok.inj h
    exact hstop
  | fault error => rw [hfollow] at h; cases h
  | link directory target rest =>
    rw [hfollow] at h hstop
    obtain ⟨hdirectory, hrest⟩ := hstop
    cases links with
    | zero => cases h
    | succ links =>
      by_cases hempty : target = .empty
      · simp [hempty] at h
      · simp only [if_neg hempty] at h
        refine locate_free htree ?_ ((areSteps_steps ⟨target⟩).append hrest) h
        split
        · exact isDirectory_root
        · exact hdirectory
termination_by links

theorem resolve_free (htree : fs.IsTree []) {last : Bool} {workingDirectory path : Path}
    {location : Location} (h : fs.resolve last workingDirectory path = .ok (.missing location)) :
    fs.IsInside location := by
  obtain ⟨-, -, hlocate⟩ := resolve_eq_ok h
  exact locate_free htree isDirectory_root
    ((areSteps_start workingDirectory path).append (areSteps_steps path)) hlocate

/-! ## Whole file systems -/

/-- What is put inside a directory leaves the file system whole, as long as a directory that stands
there stays one. -/
theorem IsWhole.insert (hwhole : fs.IsWhole) {location : Location} (hinside : fs.IsInside location)
    {entry : Entry}
    (hstays : fs.IsDirectory location → ∃ permissions, entry = .directory permissions) :
    (fs.insert location entry).IsWhole := by
  obtain ⟨above, name, rfl, habove, hname⟩ := hinside
  have hgrown := Grown.insert hwhole.tree List.nil_prefix habove hname hstays
  refine ⟨hgrown.tree, fun found hmem => ?_⟩
  rcases mem_insertEntry hmem with hnew | hold
  · simp at hnew
  · exact hwhole.root found hold

/-- A whole file system stays whole when a tree in it grows. -/
theorem Grown.isWhole {top : Location} (h : Grown top fs grown) (htop : top ≠ [])
    (hwhole : fs.IsWhole) : grown.IsWhole := by
  have hoff : ¬ top <+: [] := fun hprefix => htop (List.prefix_nil.mp hprefix)
  constructor
  case tree =>
    refine ⟨isDirectory_root, fun location name entry _ hentry => ?_⟩
    by_cases hbelow : top <+: location
    · exact h.tree.inside location name entry hbelow hentry
    -- what stands at the top stood there before, and so did what stands elsewhere
    have hsame : grown.get? (location ++ [name]) = fs.get? (location ++ [name]) := by
      by_cases hplace : top <+: location ++ [name]
      · obtain rfl := (List.prefix_concat_iff.mp hplace).resolve_right hbelow
        exact h.root
      · exact h.get? hplace
    rw [hsame] at hentry
    obtain ⟨⟨permissions, hlocation⟩, hname⟩ :=
      hwhole.tree.inside location name entry List.nil_prefix hentry
    exact ⟨⟨permissions, (h.get? hbelow).trans hlocation⟩, hname⟩
  case root =>
    intro entry hmem
    have hkept : ([], entry) ∈ (grown.eraseBelow top).entries :=
      List.mem_filter.mpr ⟨hmem, by rw [isPrefixOf_eq_false.mpr hoff]; rfl⟩
    rw [h.outside] at hkept
    exact hwhole.root entry (List.mem_filter.mp hkept).1

/-- An archive is unpacked into a whole file system. -/
theorem unpack_isWhole (hwhole : fs.IsWhole) {setting : Setting} {path : Path} {kind : ArchiveKind}
    {seen : FileSystem} {directory : OwnDirectory}
    (h : fs.unpack setting path kind = (seen, .ok directory)) : seen.IsWhole := by
  obtain ⟨hplace, hinto⟩ := unpack_eq_ok h
  obtain ⟨hresolve, hfree⟩ := freePlace?_free hplace
  obtain ⟨hroot, -⟩ := resolve_missing hresolve
  have hentered : (fs.enter directory).IsWhole :=
    hwhole.insert (resolve_free hwhole.tree hresolve) fun _ => ⟨.all, rfl⟩
  have hgrown := unpackInto_grown (enter_isTree hfree hroot) setting path kind
  rw [hinto] at hgrown
  exact hgrown.isWhole hroot hentered

end FileSystem

theorem Analyzer.LooksAt.isWhole {setting : Setting} {fs seen : FileSystem} {request : Request}
    {place : Path} (h : LooksAt setting fs request seen place) (hwhole : fs.IsWhole) :
    seen.IsWhole := by
  cases h with
  | input => exact hwhole
  | unpacked _ hunpack => exact unpack_isWhole hwhole hunpack

end CallSift

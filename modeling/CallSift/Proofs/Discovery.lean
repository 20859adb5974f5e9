import CallSift.Proofs.Analysis.Accounting
import CallSift.Proofs.FileSystem.Normal
import CallSift.Proofs.FileSystem.Walk
import CallSift.Proofs.Path.Order

/-!
# Finding every file

A run finds the files that its input leads down to, each once and in order, and takes the
sources among them for inputs. How a directory lists its names does not matter, nor does
the order in which its entries were made.

* `isSource_iff`: which files are sources.
* `directory?_input`: the normal form of the input names the directory that the input names.
* `Covers`: what a run finds below a directory.
* `discovery_complete`: it covers every readable directory, in the order of a walk.
-/
namespace CallSift

theorem Language.isSource_iff {language : Language} {file : Path} :
    language.isSource file = true ↔ file.extension? = some ("rb" : Bytes) ∨
      file.fileName? = some ("Rakefile" : Bytes) ∨ file.fileName? = some ("Gemfile" : Bytes) := by
  cases language
  simp [isSource, extensions, buildScripts, Option.any_eq_true, and_or_left, exists_or]

theorem Language.filter_isSource (language : Language) (files : List Path) :
    files.filter language.isSource = files.filter fun file =>
      file.extension? = some ("rb" : Bytes) ∨ file.fileName? = some ("Rakefile" : Bytes) ∨
        file.fileName? = some ("Gemfile" : Bytes) := by
  refine List.filter_congr fun file _ => ?_
  rw [Bool.eq_iff_iff, isSource_iff, decide_eq_true_iff]

namespace FileSystem

/-- The files below a directory, and those of them that are inputs. -/
structure Covers (fs : FileSystem) (workingDirectory : Path) (top : Location)
    (set : InputSet) : Prop where
  /-- The normal form of the input leads to the directory. -/
  input : fs.directory? workingDirectory set.input = some top
  files : ∀ file, file ∈ set.files ↔
    ∃ names, fs.LeadsDown top names ∧ file = below set.input names
  ordered : set.files.Pairwise fun file other =>
    file.Before other ∧ file.components ≠ other.components
  inputs : set.inputs = set.files.filter fun file =>
    file.extension? = some ("rb" : Bytes) ∨ file.fileName? = some ("Rakefile" : Bytes) ∨
      file.fileName? = some ("Gemfile" : Bytes)
  isInput : ∀ path, set.isInput path = true ↔
    ∃ file ∈ set.inputs, file.components = path.components

section
variable {fs : FileSystem} {workingDirectory input : Path} {language : Language}
  {root : Option Path} {set : InputSet} {top : Location}

/-! ## The input -/

theorem input_enumerate (components : List Component) :
    (fs.enumerate workingDirectory language components).input = .ofComponents components := by
  simp only [enumerate]
  split <;> rfl

theorem input_eq (hplain : IsPlain workingDirectory input)
    (hset : fs.discover workingDirectory language input root = .ok set) :
    set.input = fromRoot (normalNames workingDirectory input) := by
  obtain ⟨components, above, hcomponents, rfl⟩ := discover_eq_ok hset
  obtain rfl := Option.some.inj ((absolute?_names hplain).symm.trans hcomponents)
  exact (input_enumerate _).trans (ofComponents_fromRoot _)

/-- Links on the way to the input are on the way to its normal form as well. -/
theorem directory?_input (hwhole : fs.IsWhole) (hplain : IsPlain workingDirectory input)
    (hplace : fs.directory? workingDirectory input = some top)
    (hset : fs.discover workingDirectory language input root = .ok set)
    (hreadable : fs.Readable workingDirectory set.input top) :
    fs.directory? workingDirectory set.input = some top := by
  have hstands : fs.IsDirectory (top ++ []) := by
    rw [List.append_nil]
    exact isDirectory_of_directory? hwhole hplace
  obtain ⟨location, permissions, hnormal, -⟩ := hreadable [] hstands
  obtain ⟨found, hstat⟩ := stat_of_directory? hplace
  rw [below, List.foldl_nil, input_eq hplain hset] at hnormal
  obtain ⟨rfl, -⟩ := stat_normal hplain hstat hnormal
  rw [input_eq hplain hset, directory?, hnormal]

/-! ## The files -/

/-- A run keeps the files that a walk comes by. -/
theorem files_walked (hplace : fs.directory? workingDirectory set.input = some top)
    (hset : fs.discover workingDirectory language input root = .ok set) :
    set.files = ((fs.filesBelow top).filter (isWalked set.input)).map (below set.input) ∧
      set.inputs = set.files.filter language.isSource := by
  obtain ⟨components, above, -, rfl⟩ := discover_eq_ok hset
  simp only [input_enumerate] at hplace ⊢
  simp only [enumerate, hplace, and_self]

/-- In a readable directory a walk comes by every file. -/
theorem files_eq (hwhole : fs.IsWhole)
    (hplace : fs.directory? workingDirectory set.input = some top)
    (hreadable : fs.Readable workingDirectory set.input top)
    (hset : fs.discover workingDirectory language input root = .ok set) :
    set.files = (fs.filesBelow top).map (below set.input) ∧
      set.inputs = set.files.filter language.isSource := by
  have hfiles := files_walked hplace hset
  rwa [filter_isWalked hwhole hplace hreadable] at hfiles

theorem isName_of_mem_filesBelow (hwhole : fs.IsWhole) {place : Path}
    (hplace : fs.directory? workingDirectory place = some top) {names : List Bytes}
    (hmem : names ∈ fs.filesBelow top) : names ≠ [] ∧ ∀ name ∈ names, IsName name := by
  obtain ⟨hsome, content, permissions, hfile⟩ :=
    (leadsDown_of_mem_filesBelow hwhole hplace hmem).stands
  exact ⟨hsome, isName_below hwhole hfile⟩

/-- A run finds no file twice, whatever it can list. -/
theorem nodup_files (hwhole : fs.IsWhole)
    (hset : fs.discover workingDirectory language input root = .ok set) : set.files.Nodup := by
  obtain ⟨components, above, -, rfl⟩ := discover_eq_ok hset
  simp only [enumerate]
  split
  · next top hplace =>
    refine List.pairwise_map.mpr (((filesBelow_pairwise fs top).filter _).imp_of_mem ?_)
    intro names other hnames hother hbefore hsame
    have hproper := (isName_of_mem_filesBelow hwhole hplace (List.mem_filter.mp hnames).1).2
    have hotherProper := (isName_of_mem_filesBelow hwhole hplace (List.mem_filter.mp hother).1).2
    exact (before_below hproper hotherProper hbefore _).components_ne
      (congrArg Path.components hsame)
  · exact List.nodup_singleton _

theorem covers (hwhole : fs.IsWhole)
    (hplace : fs.directory? workingDirectory set.input = some top)
    (hreadable : fs.Readable workingDirectory set.input top)
    (hset : fs.discover workingDirectory language input root = .ok set) :
    fs.Covers workingDirectory top set := by
  obtain ⟨hfiles, hinputs⟩ := files_eq hwhole hplace hreadable hset
  have hnames : ∀ names ∈ fs.filesBelow top, ∀ name ∈ names, IsName name :=
    fun _ hmem => (isName_of_mem_filesBelow hwhole hplace hmem).2
  refine ⟨hplace, fun file => ?_, ?_, ?_, fun path => ?_⟩
  · simp only [hfiles, List.mem_map, mem_filesBelow_iff hwhole hplace hreadable, eq_comm]
  · rw [hfiles, List.pairwise_map]
    refine (filesBelow_pairwise fs top).imp_of_mem fun hone htwo hbefore => ?_
    have hpaths := before_below (hnames _ hone) (hnames _ htwo) hbefore set.input
    exact ⟨hpaths, hpaths.components_ne⟩
  · rw [hinputs, Language.filter_isSource]
  · simp only [InputSet.isInput, List.any_eq_true, decide_eq_true_eq]

/-- **Discovery.** If everything in a directory can be listed, a run finds the files below it and
no others, in the order of their components, each once. They stand as a walk meets them that
goes far enough down and sorts the names of every directory, in whatever order they are listed.
A file system with the same entries gives the same, in whatever order they were made. -/
theorem discovery_complete (hwhole : fs.IsWhole)
    (habsolute : workingDirectory.isAbsolute = true)
    (hworking : .parent ∉ workingDirectory.components) (hinput : .parent ∉ input.components)
    (hplace : fs.directory? workingDirectory input = some top)
    (hset : fs.discover workingDirectory language input root = .ok set)
    (hreadable : fs.Readable workingDirectory set.input top) :
    fs.Covers workingDirectory top set ∧
    (∀ (listing : Listing fs) (levels : Nat), (∀ e ∈ fs.entries, e.1.length ≤ levels) →
      set.files = (sortedWalk fs listing.names levels top).map (below set.input)) ∧
    ∀ other : FileSystem, other.IsWhole →
      (∀ location, other.get? location = fs.get? location) →
      other.discover workingDirectory language input root = .ok set := by
  obtain ⟨hnonempty, -⟩ := directory?_eq_some hplace
  have hplain : IsPlain workingDirectory input := ⟨habsolute, hworking, hnonempty, hinput⟩
  have hnormal := directory?_input hwhole hplain hplace hset hreadable
  refine ⟨covers hwhole hnormal hreadable hset, fun listing levels hlevels => ?_,
    fun other hother hsame => ?_⟩
  · rw [(files_eq hwhole hnormal hreadable hset).1,
      filesBelow_eq_sortedWalk listing hwhole hnormal hreadable hlevels]
  · rwa [hwhole.ext hother hsame]

end

/-- Names in which dots and dashes meet slashes, and an input that is a link. -/
def dashedFiles : FileSystem where
  entries :=
    [(["app"], .directory .all),
     (["app", "a"], .directory .all),
     (["app", "a", "b.rb"], .file .empty .all),
     (["app", "a-b"], .file .empty .all),
     (["app", "a.rb"], .file .empty .all),
     (["app", "z.rb"], .link "a.rb"),
     (["in"], .link "app")]
  sorted := by decide

theorem dashedFiles_isWhole : dashedFiles.IsWhole := by
  refine isWhole_iff.mpr fun e he => ?_
  simp only [dashedFiles, List.mem_cons, List.not_mem_nil, or_false] at he
  rcases he with rfl | rfl | rfl | rfl | rfl | rfl | rfl
  · exact ⟨[], "app", rfl, isDirectory_root, by decide⟩
  · exact ⟨["app"], "a", rfl, ⟨_, rfl⟩, by decide⟩
  · exact ⟨["app", "a"], "b.rb", rfl, ⟨_, rfl⟩, by decide⟩
  · exact ⟨["app"], "a-b", rfl, ⟨_, rfl⟩, by decide⟩
  · exact ⟨["app"], "a.rb", rfl, ⟨_, rfl⟩, by decide⟩
  · exact ⟨["app"], "z.rb", rfl, ⟨_, rfl⟩, by decide⟩
  · exact ⟨[], "in", rfl, isDirectory_root, by decide⟩

theorem dashedFiles_readable : dashedFiles.Readable ⟨"/"⟩ ⟨"/in"⟩ ["app"] := by
  rintro names ⟨permissions, hdirectory⟩
  have hmem := (get?_eq_some_iff (List.append_ne_nil_of_left_ne_nil (by simp) names)).mp hdirectory
  simp only [dashedFiles, List.mem_cons, List.not_mem_nil, or_false, Prod.mk.injEq,
    List.cons_append, List.nil_append, List.cons.injEq, true_and] at hmem
  rcases hmem with ⟨rfl, -⟩ | ⟨rfl, -⟩ | ⟨-, ⟨⟩⟩ | ⟨-, ⟨⟩⟩ | ⟨-, ⟨⟩⟩ | ⟨-, ⟨⟩⟩ | ⟨-, ⟨⟩⟩
  · exact ⟨["app"], .all, rfl, rfl⟩
  · exact ⟨["app", "a"], .all, rfl, rfl⟩

def dashedSet : InputSet where
  input := ⟨"/in"⟩
  root := ⟨"/in"⟩
  inputs := [⟨"/in/a/b.rb"⟩, ⟨"/in/a.rb"⟩]
  files := [⟨"/in/a/b.rb"⟩, ⟨"/in/a-b"⟩, ⟨"/in/a.rb"⟩]
  unlisted := []

/-- The files of a directory stand where its name does, and a link in it is no file. -/
theorem dashed_files_discovered :
    dashedFiles.discover ⟨"/"⟩ .ruby ⟨"./in"⟩ none = .ok dashedSet ∧
    dashedFiles.Covers ⟨"/"⟩ ["app"] dashedSet ∧
    dashedSet.files = (sortedWalk dashedFiles dashedFiles.inOrder.names 3 ["app"]).map
      (below dashedSet.input) := by
  have hset : dashedFiles.discover ⟨"/"⟩ .ruby ⟨"./in"⟩ none = .ok dashedSet := by
    rfl
  obtain ⟨hcovers, hwalk, -⟩ := discovery_complete dashedFiles_isWhole (by decide) (by decide)
    (by decide) (by rfl) hset dashedFiles_readable
  exact ⟨hset, hcovers, hwalk dashedFiles.inOrder 3 (by decide)⟩

end FileSystem
end CallSift

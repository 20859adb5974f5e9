import CallSift.Proofs.Discovery
import CallSift.Proofs.FileSystem.Fold

/-!
# The object that is reported

A run asks whether its input exists where the path leads, and looks for files where the
normal form of the path leads. It reports what stands there: the files below a directory,
or the one file. That is what was named, unless a `..` stands behind a link.

* `ListsBelow`: what a run lists below a directory.
* `discovery_of_normal_form`: a run reports what the normal form of its input names, which is
  what the input names as long as no `..` climbs out of a link.
* `link_left_by_name`: behind a link a run reports another directory.
-/
namespace CallSift.FileSystem

/-- A run lists files below a directory, among them all whose directories can be listed, and
takes the sources for inputs. -/
structure ListsBelow (fs : FileSystem) (workingDirectory : Path) (top : Location)
    (set : InputSet) : Prop where
  files : ∀ file ∈ set.files, ∃ names, fs.LeadsDown top names ∧ file = below set.input names
  complete : ∀ names, fs.LeadsDown top names → fs.ListsWay workingDirectory set.input names →
    below set.input names ∈ set.files
  /-- The path of a file leads to it, or nowhere. -/
  leads : ∀ names location entry, fs.LeadsDown top names →
    fs.stat workingDirectory (below set.input names) = .ok (location, entry) →
    location = top ++ names ∧ fs.get? location = some entry
  inputs : set.inputs = set.files.filter fun file =>
    file.extension? = some ("rb" : Bytes) ∨ file.fileName? = some ("Rakefile" : Bytes) ∨
      file.fileName? = some ("Gemfile" : Bytes)

section
variable {fs : FileSystem} {workingDirectory input : Path} {language : Language}
  {root : Option Path} {set : InputSet} {top : Location}

/-- What a run takes for its input exists. -/
theorem stat_of_discover (hset : fs.discover workingDirectory language input root = .ok set) :
    ∃ location entry, fs.stat workingDirectory input = .ok (location, entry) := by
  unfold discover at hset
  split at hset
  · next hexists =>
    unfold exists? at hexists
    cases hstat : fs.stat workingDirectory input with
    | error => rw [hstat] at hexists; cases hexists
    | ok found => exact ⟨found.1, found.2, rfl⟩
  · cases hset

theorem input_folded (hworking : workingDirectory.isAbsolute = true)
    (hset : fs.discover workingDirectory language input root = .ok set) :
    set.input = fromRoot (folded workingDirectory input) := by
  obtain ⟨components, above, hcomponents, rfl⟩ := discover_eq_ok hset
  have hsome : input.bytes ≠ .empty := by
    intro hempty
    simp [Path.absolute?, hempty] at hcomponents
  rw [absolute?_folded hworking hsome] at hcomponents
  obtain rfl := Option.some.inj hcomponents
  exact (input_enumerate _).trans (ofComponents_ofName _)

/-- The path of a file below a directory leads to it, unless it leads nowhere. -/
theorem stat_leadsDown (hwhole : fs.IsWhole) {place : Path}
    (hplace : fs.directory? workingDirectory place = some top) {names : List Bytes}
    (hleads : fs.LeadsDown top names) {location : Location} {entry : Entry}
    (hstat : fs.stat workingDirectory (below place names) = .ok (location, entry)) :
    location = top ++ names ∧ fs.get? location = some entry := by
  obtain ⟨hsome, content, permissions, hfile⟩ := hleads.stands
  have hnames := isName_below hwhole hfile
  have hresolve := stat_eq_ok.mp hstat
  obtain ⟨-, hshort, -⟩ := resolve_eq_ok hresolve
  rcases follow_file hwhole.tree hsome hfile with ⟨error, hfault⟩ | hfound
  · have herror := resolve_below hplace hnames hsome hshort fun links => by
      rw [locate, hfault]
    cases hresolve.symm.trans herror
  · have hsame := resolve_below hplace hnames hsome hshort fun links => by
      rw [locate, hfound]
    obtain ⟨rfl, rfl⟩ := Place.found.inj (Except.ok.inj (hresolve.symm.trans hsame))
    exact ⟨rfl, hfile⟩

theorem listsBelow (hwhole : fs.IsWhole)
    (hplace : fs.directory? workingDirectory set.input = some top)
    (hset : fs.discover workingDirectory language input root = .ok set) :
    fs.ListsBelow workingDirectory top set := by
  obtain ⟨hfiles, hinputs⟩ := files_walked hplace hset
  refine ⟨fun file hfile => ?_, fun names hleads hlists => ?_, fun names location entry hleads =>
    stat_leadsDown hwhole hplace hleads, ?_⟩
  · rw [hfiles] at hfile
    obtain ⟨names, hmem, rfl⟩ := List.mem_map.mp hfile
    exact ⟨names, leadsDown_of_mem_filesBelow hwhole hplace (List.mem_filter.mp hmem).1, rfl⟩
  · rw [hfiles]
    exact List.mem_map_of_mem
      (List.mem_filter.mpr (mem_filesBelow_of_leadsDown hwhole hplace hleads hlists))
  · rw [hinputs, Language.filter_isSource]

/-- What is no directory is all that a run lists. -/
theorem files_of_none (hnone : fs.directory? workingDirectory set.input = none)
    (hset : fs.discover workingDirectory language input root = .ok set) :
    set.files = [set.input] ∧ set.inputs = [set.input] := by
  obtain ⟨components, above, -, rfl⟩ := discover_eq_ok hset
  simp only [input_enumerate] at hnone ⊢
  simp only [enumerate, hnone, and_self]

/-- A file is all that a run lists for itself. -/
theorem files_of_isFile (hfile : fs.isFile workingDirectory set.input = true)
    (hset : fs.discover workingDirectory language input root = .ok set) :
    set.files = [set.input] ∧ set.inputs = [set.input] := by
  refine files_of_none ?_ hset
  unfold isFile at hfile
  unfold directory?
  split at hfile
  · next hstat => simp only [hstat]
  · cases hfile

/-- **What was named.** If a run finds its files, its input exists. The files are those of what
the normal form of the input names: those below a directory, or a file alone. The normal form
names the very object that the input names, whatever links lead to it, if no `..` stands
behind a link and the normal form is not too long. -/
theorem discovery_of_normal_form (hwhole : fs.IsWhole)
    (hworking : workingDirectory.isAbsolute = true)
    (hset : fs.discover workingDirectory language input root = .ok set) :
    ∃ location entry, fs.stat workingDirectory input = .ok (location, entry) ∧
      (Path.absolute? workingDirectory input).map Path.ofComponents = some set.input ∧
      (∀ top, fs.directory? workingDirectory set.input = some top →
        fs.ListsBelow workingDirectory top set) ∧
      (fs.isFile workingDirectory set.input = true →
        set.files = [set.input] ∧ set.inputs = [set.input]) ∧
      (fs.ClimbsDirectories workingDirectory input →
        set.input.bytes.size < pathLimit →
        fs.stat workingDirectory set.input = .ok (location, entry)) := by
  obtain ⟨location, entry, hstat⟩ := stat_of_discover hset
  have hinput := input_folded hworking hset
  refine ⟨location, entry, hstat, ?_, fun top hplace => listsBelow hwhole hplace hset,
    fun hfile => files_of_isFile hfile hset, fun hclimbs hshort => ?_⟩
  · obtain ⟨hsome, -⟩ := resolve_eq_ok (stat_eq_ok.mp hstat)
    rw [absolute?_folded hworking hsome, Option.map_some, ofComponents_ofName, hinput]
  · rw [hinput] at hshort ⊢
    exact stat_folded hclimbs hstat hshort

end

/-- The input is a link, and the `..` before it stands behind a directory. -/
theorem dashed_input_named :
    dashedFiles.stat ⟨"/"⟩ ⟨"/app/../in"⟩ = .ok (["app"], .directory .all) ∧
    dashedFiles.stat ⟨"/"⟩ dashedSet.input = .ok (["app"], .directory .all) ∧
    dashedFiles.ListsBelow ⟨"/"⟩ ["app"] dashedSet := by
  have hset : dashedFiles.discover ⟨"/"⟩ .ruby ⟨"/app/../in"⟩ none = .ok dashedSet := by
    rfl
  have hnamed : dashedFiles.stat ⟨"/"⟩ ⟨"/app/../in"⟩ = .ok (["app"], .directory .all) := by
    rfl
  have hclimbs : dashedFiles.ClimbsDirectories ⟨"/"⟩ ⟨"/app/../in"⟩ :=
    ⟨["app", ".."], ["in"], [], .all, rfl, by decide, rfl⟩
  obtain ⟨location, entry, hstat, -, hlists, -, hsame⟩ :=
    discovery_of_normal_form dashedFiles_isWhole (by decide) hset
  obtain ⟨rfl, rfl⟩ := Prod.mk.inj (Except.ok.inj (hnamed.symm.trans hstat))
  exact ⟨hnamed, hsame hclimbs (by decide), hlists ["app"] (by rfl)⟩

/-- A link to a directory, and two directories of one name: next to what it leads to, and next to
the link. -/
def linkedDirectories : FileSystem where
  entries :=
    [(["u"], .directory .all),
     (["u", "d"], .directory .all),
     (["u", "d", "a.rb"], .file .empty .all),
     (["u", "v"], .directory .all),
     (["w"], .directory .all),
     (["w", "d"], .directory .all),
     (["w", "d", "b.rb"], .file .empty .all),
     (["w", "l"], .link "/u/v")]
  sorted := by decide

theorem linkedDirectories_isWhole : linkedDirectories.IsWhole := by
  refine isWhole_iff.mpr fun e he => ?_
  simp only [linkedDirectories, List.mem_cons, List.not_mem_nil, or_false] at he
  rcases he with rfl | rfl | rfl | rfl | rfl | rfl | rfl | rfl
  · exact ⟨[], "u", rfl, isDirectory_root, by decide⟩
  · exact ⟨["u"], "d", rfl, ⟨_, rfl⟩, by decide⟩
  · exact ⟨["u", "d"], "a.rb", rfl, ⟨_, rfl⟩, by decide⟩
  · exact ⟨["u"], "v", rfl, ⟨_, rfl⟩, by decide⟩
  · exact ⟨[], "w", rfl, isDirectory_root, by decide⟩
  · exact ⟨["w"], "d", rfl, ⟨_, rfl⟩, by decide⟩
  · exact ⟨["w", "d"], "b.rb", rfl, ⟨_, rfl⟩, by decide⟩
  · exact ⟨["w"], "l", rfl, ⟨_, rfl⟩, by decide⟩

/-- A `..` behind the link leads to one of them, and a run lists the files of the other. -/
theorem link_left_by_name :
    linkedDirectories.IsWhole ∧
    linkedDirectories.directory? ⟨"/"⟩ ⟨"/w/l/../d"⟩ = some (["u", "d"] : Location) ∧
    linkedDirectories.LeadsDown ["u", "d"] ["a.rb"] ∧
    linkedDirectories.discover ⟨"/"⟩ .ruby ⟨"/w/l/../d"⟩ none =
      .ok ⟨⟨"/w/d"⟩, ⟨"/w/d"⟩, [⟨"/w/d/b.rb"⟩], [⟨"/w/d/b.rb"⟩], []⟩ ∧
    linkedDirectories.stat ⟨"/"⟩ ⟨"/w/d/b.rb"⟩ =
      .ok (["w", "d", "b.rb"], .file .empty .all) :=
  ⟨linkedDirectories_isWhole, by rfl, .file (by rfl), by rfl, by rfl⟩

end CallSift.FileSystem

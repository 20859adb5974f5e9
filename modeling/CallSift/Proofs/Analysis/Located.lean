import CallSift.Proofs.Analysis.Provenance
import CallSift.Proofs.Analysis.Whole
import CallSift.Proofs.Discovery
import CallSift.Proofs.Path.Canonical
import CallSift.Proofs.Record.Descriptor

/-!
# Records say where their files are

A run without a root of its own takes the input for the root, or the directory of an input
that is no directory. Both are in normal form, and names lead from there to every file that
is found. So every record of such a run says the same of its file in all the ways in which
it says where the file is.

* `absolute?_rooted`: the normal form of an input.
* `files_below`: the files of a run are below its root.
* `descriptions_agree`: what records say of their files agrees.
-/
namespace CallSift

namespace Path

/-- The normal form of a path is that of an absolute one. -/
theorem absolute?_rooted {workingDirectory path : Path} {components : List Component}
    (hworking : workingDirectory.isAbsolute = true)
    (h : absolute? workingDirectory path = some components) :
    ∃ climbs place, components = rooted climbs place ∧ ∀ name ∈ place, IsName name := by
  have hnormal : ∀ whole : Path, whole.isAbsolute = true →
      components = Path.normalize whole.components →
      ∃ climbs place, components = rooted climbs place ∧ ∀ name ∈ place, IsName name := by
    rintro whole hwhole rfl
    exact ⟨_, _, normalize_of_absolute hwhole, fun _ => isName_of_mem_place hwhole⟩
  unfold absolute? at h
  split at h
  · cases h
  split at h
  · next habsolute => exact hnormal path habsolute (Option.some.inj h).symm
  · next hrelative =>
    have hsome := bytes_ne_of_isAbsolute hworking
    have hpath : path.isAbsolute = false := by simpa using hrelative
    rw [← components_join hsome hpath] at h
    refine hnormal (workingDirectory.push path) ?_ (Option.some.inj h).symm
    rw [isAbsolute_push_relative hsome hpath]
    exact hworking

end Path

namespace FileSystem

open CallSift.Path

variable {fs : FileSystem} {workingDirectory input : Path} {language : Language}
  {set : InputSet}

/-- What stands for the root of the file system is a directory. -/
theorem directory?_rooted_nil (fs : FileSystem) (workingDirectory : Path) (climbs : Nat) :
    fs.directory? workingDirectory (ofComponents (rooted climbs [])) = some [] := by
  unfold rooted
  by_cases heven : climbs % 2 = 0
  · rw [if_pos heven]
    rfl
  · rw [if_neg heven]
    rfl

/-- A run without a root of its own finds files below its root only. -/
theorem files_below (hwhole : fs.IsWhole) (hworking : workingDirectory.isAbsolute = true)
    (hset : fs.discover workingDirectory language input none = .ok set) {file : Path}
    (hfile : file ∈ set.files) : file.IsBelow set.root := by
  unfold discover at hset
  split at hset
  case isFalse => cases hset
  cases hcomponents : absolute? workingDirectory input with
  | none => simp [hcomponents] at hset
  | some components =>
    simp only [hcomponents, Except.ok.injEq] at hset
    obtain ⟨climbs, place, rfl, hplace⟩ := absolute?_rooted hworking hcomponents
    obtain ⟨habsolute, hmade⟩ := ofComponents_rooted climbs hplace
    subst hset
    cases hdirectory : fs.directory? workingDirectory (ofComponents (rooted climbs place)) with
    | some top =>
      simp only [enumerate, hdirectory] at hfile ⊢
      obtain ⟨names, hnames, rfl⟩ := List.mem_map.mp hfile
      obtain ⟨hsome, hproper⟩ :=
        isName_of_mem_filesBelow hwhole hdirectory (List.mem_filter.mp hnames).1
      refine ⟨habsolute, ?_, names, hsome, hproper, components_below hproper _⟩
      rw [hmade, normalize_rooted]
    | none =>
      -- the input is no directory, so it has a name, and its directory is the root
      rcases List.eq_nil_or_concat place with rfl | ⟨front, last, rfl⟩
      · rw [directory?_rooted_nil] at hdirectory
        cases hdirectory
      rw [List.concat_eq_append] at hplace hmade hdirectory hfile ⊢
      have hsplit : rooted climbs (front ++ [last]) = rooted climbs front ++ [.normal last] := by
        simp [rooted]
      have hparent : parent? (rooted climbs (front ++ [last])) = some (rooted climbs front) := by
        rw [hsplit]
        exact parent?_append _ (by simp)
      simp only [enumerate, hdirectory, hparent, List.mem_singleton] at hfile ⊢
      subst hfile
      obtain ⟨hroot, hrootMade⟩ := ofComponents_rooted climbs fun name hname =>
        hplace name (List.mem_append_left _ hname)
      refine ⟨hroot, ?_, [last], List.cons_ne_nil last [], ?_, ?_⟩
      · exact (congrArg Path.normalize hrootMade).trans ((normalize_rooted ..).trans hrootMade.symm)
      · intro name hname
        exact hplace name (List.mem_append_right _ hname)
      · rw [hmade, hsplit]
        exact congrArg (· ++ [Component.normal last]) hrootMade.symm

end FileSystem

namespace Analyzer

/-- **Descriptions of files.** Of an absolute path with a name at its end and an absolute root,
both made of names only, where the path does not stand on the way to the root, it is said in
agreement where the file stands: the file is its directory with the name behind, or the name alone
if the directory is the root, which a dot stands for and for nothing else; and behind the root the
path of the file is found again as it is shown, which is the path itself exactly if it is a text.
The same holds at both ends of every record of a run without a root of its own, and no `..` leads
to its file. -/
theorem descriptions_agree :
    (∀ file root : Path, file.IsDirect → root.IsDirect → file.fileName?.isSome = true →
      ¬ file.components <+: root.components → (FileInfo.of file root).Locates file root) ∧
    ∀ (analyzer : Analyzer) setting fs request outcome, fs.IsWhole →
      setting.workingDirectory.isAbsolute = true → request.root = none →
      (analyzer.analyze setting fs request).result = .ok outcome →
      ∃ seen place set, LooksAt setting fs request seen place ∧
        seen.discover setting.workingDirectory language place none = .ok set ∧
        ∀ record ∈ outcome.package.records, ∃ file ∈ set.inputs,
          record.range.start.fileInfo = .of file set.root ∧
          record.range.stop.fileInfo = .of file set.root ∧
          (FileInfo.of file set.root).Locates file set.root ∧
          .parent ∉ (Path.mk (FileInfo.of file set.root).file).components := by
  constructor
  · exact fun _ _ => FileInfo.locates_direct
  · intro analyzer setting fs request outcome hwhole hworking hroot h
    obtain ⟨seen, place, hlooks, hat⟩ := analyze_ok h
    obtain ⟨set, hset, haccounts⟩ := analyzeAt_ok hat
    have hfound : ∀ file ∈ set.inputs, file ∈ set.files := by
      intro file hfile
      rw [← FileSystem.filter_isInput hset] at hfile
      exact (List.mem_filter.mp hfile).1
    rw [hroot] at hset
    refine ⟨seen, place, set, hlooks, hset, ?_⟩
    intro record hrecord
    obtain ⟨file, hfile, found, hresult, hmem⟩ := haccounts.mem_records.mp hrecord
    have hproper := (mem_fileRecords hresult hmem).1
    have hbelow := FileSystem.files_below (hlooks.isWhole hwhole) hworking hset (hfound file hfile)
    exact ⟨file, hfile, hproper.start, hproper.stop, FileInfo.locates_below hbelow⟩

/-- One source, two directories below the root of the file system. -/
def nestedFiles : FileSystem where
  entries :=
    [(["app"], .directory .all),
     (["app", "lib"], .directory .all),
     (["app", "lib", "a.rb"], .file "é".toUTF8 .all)]
  sorted := by decide

theorem nestedFiles_isWhole : nestedFiles.IsWhole := by
  refine FileSystem.isWhole_iff.mpr fun e he => ?_
  simp only [nestedFiles, List.mem_cons, List.not_mem_nil, or_false] at he
  rcases he with rfl | rfl | rfl
  · exact ⟨[], "app", rfl, FileSystem.isDirectory_root, by decide⟩
  · exact ⟨["app"], "lib", rfl, ⟨_, rfl⟩, by decide⟩
  · exact ⟨["app", "lib"], "a.rb", rfl, ⟨_, rfl⟩, by decide⟩

/-- The records of the one source of a run that starts at its directory's directory. -/
def nestedRecords : List Record :=
  let file : FileInfo := ⟨"a.rb", "lib", "lib/a.rb", "/app"⟩
  [⟨.functionDeclRefExpr, "é", none, "é", none, "é", ⟨⟨1, 0, file⟩, ⟨1, 1, file⟩⟩⟩]

set_option maxRecDepth 8000 in
/-- A file is described from a root beside it, by way of `..`, and a file below the root of a run
by the names that lead to it. -/
theorem beside_and_below_described :
    (FileInfo.of ⟨"/a/x/y.rb"⟩ ⟨"/a/b"⟩ = ⟨"y.rb", "../x", "../x/y.rb", "/a/b"⟩ ∧
      (FileInfo.of ⟨"/a/x/y.rb"⟩ ⟨"/a/b"⟩).Locates ⟨"/a/x/y.rb"⟩ ⟨"/a/b"⟩) ∧
    ∃ outcome, (pickyAnalyzer.analyze plainSetting nestedFiles mixedRequest).result = .ok outcome ∧
      outcome.package.records = nestedRecords ∧
      ∀ record ∈ nestedRecords,
        record.range.start.fileInfo.Locates ⟨"/app/lib/a.rb"⟩ ⟨"/app"⟩ ∧
        .parent ∉ (Path.mk record.range.start.fileInfo.file).components := by
  obtain ⟨hdirect, hruns⟩ := descriptions_agree
  constructor
  · have hfileMade : (Path.mk "/a/x/y.rb").components =
        [.root, .normal "a", .normal "x", .normal "y.rb"] := by decide
    have hrootMade : (Path.mk "/a/b").components = [.root, .normal "a", .normal "b"] := by decide
    have hfile : (Path.mk "/a/x/y.rb").IsDirect := ⟨by decide, by simp [hfileMade]⟩
    have hroot : (Path.mk "/a/b").IsDirect := ⟨by decide, by simp [hrootMade]⟩
    exact ⟨by decide, hdirect _ _ hfile hroot (by decide) (by simp [hfileMade, hrootMade])⟩
  · have hanalyze :
        ((pickyAnalyzer.analyze plainSetting nestedFiles mixedRequest).result.map
          fun outcome => outcome.package.records) = .ok nestedRecords := by
      rfl
    have hnone : archive? nestedFiles ⟨"/"⟩ ⟨"/app"⟩ = none := by rfl
    have hfound : nestedFiles.discover ⟨"/"⟩ language ⟨"/app"⟩ none =
        .ok ⟨⟨"/app"⟩, ⟨"/app"⟩, [⟨"/app/lib/a.rb"⟩], [⟨"/app/lib/a.rb"⟩], []⟩ := by
      rfl
    obtain ⟨outcome, houtcome, hrecords⟩ := map_eq_ok.mp hanalyze
    refine ⟨outcome, houtcome, hrecords, fun record hrecord => ?_⟩
    obtain ⟨seen, place, set, hlooks, hset, hagree⟩ :=
      hruns _ _ _ _ _ nestedFiles_isWhole (by decide) rfl houtcome
    obtain ⟨file, hfile, hstart, -, hlocates⟩ := hagree record (hrecords ▸ hrecord)
    cases hlooks with
    | unpacked hkind => exact absurd (hnone.symm.trans hkind) nofun
    | input =>
      obtain rfl := Except.ok.inj (hfound.symm.trans hset)
      obtain rfl := List.mem_singleton.mp hfile
      rw [hstart]
      exact hlocates

/-- A file whose name is no text is shown under another name, so the way that leads there by its
description leads elsewhere. -/
theorem broken_name_leads_elsewhere :
    let root : Path := ⟨"/app"⟩
    let file : Path := root.push ⟨⟨[0xFF, 0x2E, 0x72, 0x62]⟩⟩
    file.IsDirect ∧ root.IsDirect ∧ file.fileName?.isSome = true ∧
      ¬ file.components <+: root.components ∧
      Path.normalize ((Path.mk (FileInfo.of file root).directory).push
        ⟨(FileInfo.of file root).file⟩).components ≠ file.components := by
  intro root file
  have hfileMade : file.components =
      [.root, .normal "app", .normal ⟨[0xFF, 0x2E, 0x72, 0x62]⟩] := by decide
  have hrootMade : root.components = [.root, .normal "app"] := by decide
  have hfile : file.IsDirect := ⟨by decide, by simp [hfileMade]⟩
  have hroot : root.IsDirect := ⟨by decide, by simp [hrootMade]⟩
  exact ⟨hfile, hroot, by decide, by simp [hfileMade, hrootMade], by decide⟩

end Analyzer
end CallSift

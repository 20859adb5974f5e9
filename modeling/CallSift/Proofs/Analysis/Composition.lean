import CallSift.Proofs.Analysis.Counts
import CallSift.Proofs.Analysis.Whole
import CallSift.Proofs.Discovery

/-!
# What a composition lists

A composition has a line for every file that was found and can be read, whatever becomes of
the file afterwards. Of the files that cannot be read it says nothing; the inputs among
them have diagnostics of reading.

* `InputSet.line?`: the line of a file.
* `stage_eq_read_iff`: an input fails at reading exactly if it cannot be read.
* `analyzeAt_composition`: the lines are those of the files.
* `composition_covers_files`: lines and diagnostics together leave no file out.
-/
namespace CallSift

/-- The line of a file that can be read: its path, one more than its line feeds, and whether it is
an input. -/
def InputSet.line? (set : InputSet) (readText : Path → Except IoCause String) (file : Path) :
    Option FileComposition :=
  match readText file with
  | .ok text => some ⟨file.text, text.toList.count '\n' + 1, decide (file ∈ set.inputs)⟩
  | .error _ => none

theorem InputSet.line?_eq_some {set : InputSet} {readText : Path → Except IoCause String}
    {file : Path} {line : FileComposition} : set.line? readText file = some line ↔
      ∃ text, readText file = .ok text ∧
        line = ⟨file.text, text.toList.count '\n' + 1, decide (file ∈ set.inputs)⟩ := by
  unfold line?
  cases readText file with
  | error cause => simp
  | ok text => simp [eq_comm]

/-- What an outcome says of the files of a run, by how each of them is read. -/
structure Outcome.Covers (outcome : Outcome) (set : InputSet)
    (readText : Path → Except IoCause String) : Prop where
  /-- A line for each file that can be read, in the order of the files. -/
  lines : outcome.composition.files = set.files.filterMap (set.line? readText)
  /-- Each line is about a file that can be read. -/
  read : ∀ line ∈ outcome.composition.files, ∃ file ∈ set.files,
    line.name = file.text ∧ ∃ text, readText file = .ok text
  /-- Where paths are texts, none has the name of a file that cannot be read. -/
  unread : (∀ file ∈ set.files, file.bytes.IsText) → ∀ file cause, file.bytes.IsText →
    readText file = .error cause → ∀ line ∈ outcome.composition.files, line.name ≠ file.text
  /-- Reading has failed for the inputs that cannot be read, and for no other file. -/
  complained : ∀ file,
    (∃ diagnostic ∈ outcome.diagnostics, diagnostic.path = file ∧ diagnostic.stage = .read) ↔
      file ∈ set.inputs ∧ ∃ cause, readText file = .error cause
  /-- An input that fails later than at reading has its line. -/
  failed : ∀ diagnostic ∈ outcome.diagnostics, diagnostic.stage ≠ .read →
    ∃ line ∈ outcome.composition.files, line.name = diagnostic.path.text ∧ line.native = true

namespace Analyzer

variable {analyzer : Analyzer} {setting : Setting} {fs : FileSystem} {request : Request}
  {outcome : Outcome} {workingDirectory place : Path} {set : InputSet}

/-! ## The stage of a fault -/

theorem parseFile_stage {file : Path} {fault : Fault}
    (h : analyzer.parseFile fs workingDirectory file = .error fault) :
    fault.stage = .read ↔ ∃ cause, fs.readText workingDirectory file = .error cause := by
  unfold parseFile at h
  split at h
  · next cause hread =>
    cases h
    exact ⟨fun _ => ⟨cause, hread⟩, fun _ => rfl⟩
  · next text hread =>
    obtain ⟨cause, -, rfl⟩ := mapError_eq_error.mp h
    rw [hread]
    cases cause <;> simp [ExtractionFault.toFault, Fault.stage]

/-- An input fails at reading exactly if it cannot be read. -/
theorem stage_eq_read_iff {root file : Path} {fault : Fault}
    (h : analyzer.fileRecords fs workingDirectory root file = .error fault) :
    fault.stage = .read ↔ ∃ cause, fs.readText workingDirectory file = .error cause := by
  unfold fileRecords at h
  cases hparse : analyzer.parseFile fs workingDirectory file with
  | error earlier =>
    rw [hparse] at h
    cases h
    exact parseFile_stage hparse
  | ok references =>
    rw [hparse] at h
    obtain ⟨text, hread, -⟩ := parseFile_eq_ok.mp hparse
    obtain ⟨reference, -, hreference⟩ := mapM_error h
    obtain ⟨range, -, rfl⟩ := mapError_eq_error.mp hreference
    simp [hread, Fault.stage]

/-! ## The lines -/

theorem mem_inputs_iff (hset : fs.discover workingDirectory language place request.root = .ok set)
    {file : Path} : file ∈ set.inputs ↔ file ∈ set.files ∧ set.isInput file = true := by
  rw [← FileSystem.filter_isInput hset, List.mem_filter]

theorem analyzeAt_composition
    (hset : fs.discover workingDirectory language place request.root = .ok set)
    (h : (analyzer.analyzeAt fs workingDirectory request place).result = .ok outcome) :
    outcome.composition.files = set.files.filterMap (set.line? (fs.readText workingDirectory)) := by
  simp only [analyzeAt, hset] at h
  obtain rfl := Except.ok.inj h
  simp only [Outcome.ofReports, List.filterMap_map]
  apply List.filterMap_congr
  intro file hfile
  have hnative : decide (file ∈ set.inputs) = set.isInput file := by
    rw [Bool.eq_iff_iff, decide_eq_true_iff, mem_inputs_iff hset]
    exact and_iff_right hfile
  rw [Function.comp_apply, report_composition?, InputSet.line?, hnative]
  rfl

theorem analyzeAt_covers
    (hset : fs.discover workingDirectory language place request.root = .ok set)
    (h : (analyzer.analyzeAt fs workingDirectory request place).result = .ok outcome)
    (haccounts : outcome.Accounts set.inputs
      (analyzer.fileRecords fs workingDirectory set.root)) :
    outcome.Covers set (fs.readText workingDirectory) := by
  have hlines := analyzeAt_composition hset h
  have hread : ∀ line ∈ outcome.composition.files, ∃ file ∈ set.files,
      line.name = file.text ∧ ∃ text, fs.readText workingDirectory file = .ok text := by
    intro line hline
    rw [hlines] at hline
    obtain ⟨file, hfile, hlineOf⟩ := List.mem_filterMap.mp hline
    obtain ⟨text, htext, rfl⟩ := InputSet.line?_eq_some.mp hlineOf
    exact ⟨file, hfile, rfl, text, htext⟩
  refine ⟨hlines, hread, ?_, ?_, ?_⟩
  · -- the name of a line is the path by which its file was read, if that is a text
    intro htexts file cause hfile hcause line hline hname
    obtain ⟨other, hother, hlineName, text, htext⟩ := hread line hline
    have hsame : other = file := by
      cases other
      cases file
      exact congrArg Path.mk ((htexts _ hother).eq_of_text hfile (hlineName.symm.trans hname))
    rw [hsame, hcause] at htext
    cases htext
  · intro file
    constructor
    · rintro ⟨diagnostic, hdiagnostic, rfl, hstage⟩
      obtain ⟨file, hfile, fault, hfault, rfl⟩ := haccounts.mem_diagnostics.mp hdiagnostic
      exact ⟨hfile, (stage_eq_read_iff hfault).mp hstage⟩
    · rintro ⟨hfile, cause, hcause⟩
      have hfault : analyzer.fileRecords fs workingDirectory set.root file =
          .error (.fileRead file cause) := by
        simp only [fileRecords, parseFile, hcause]
        rfl
      exact ⟨_, haccounts.mem_diagnostics.mpr ⟨file, hfile, _, hfault, rfl⟩, rfl, rfl⟩
  · intro diagnostic hdiagnostic hstage
    obtain ⟨file, hfile, fault, hfault, rfl⟩ := haccounts.mem_diagnostics.mp hdiagnostic
    cases hread : fs.readText workingDirectory file with
    | error cause => exact absurd ((stage_eq_read_iff hfault).mpr ⟨cause, hread⟩) hstage
    | ok text =>
      rw [hlines]
      have hfound : file ∈ set.files := ((mem_inputs_iff hset).mp hfile).1
      refine ⟨⟨file.text, text.toList.count '\n' + 1, true⟩, ?_, rfl, rfl⟩
      refine List.mem_filterMap.mpr ⟨file, hfound, InputSet.line?_eq_some.mpr ⟨text, hread, ?_⟩⟩
      rw [decide_eq_true hfile]

/-- Lines of different files have different names, if their paths are texts. -/
theorem nodup_lines (set : InputSet) (readText : Path → Except IoCause String)
    (h : set.files.Nodup) (htexts : ∀ file ∈ set.files, file.bytes.IsText) :
    ((set.files.filterMap (set.line? readText)).map FileComposition.name).Nodup := by
  have hdiffer : set.files.Pairwise fun file other => file.text ≠ other.text := by
    refine List.Pairwise.imp_of_mem ?_ h
    rintro ⟨file⟩ ⟨other⟩ hfile hother hne hsame
    exact hne (congrArg Path.mk ((htexts _ hfile).eq_of_text (htexts _ hother) hsame))
  refine List.pairwise_map.mpr (List.Pairwise.filterMap _ ?_ hdiffer)
  intro file other hne line hline otherLine hother hname
  obtain ⟨text, -, rfl⟩ := InputSet.line?_eq_some.mp hline
  obtain ⟨otherText, -, rfl⟩ := InputSet.line?_eq_some.mp hother
  exact hne hname

/-- **Composition.** When an analysis succeeds, its composition has one line for each file that
was found and can be read as text, in the order of the files, and no other line; a line counts
the line feeds of its file, and one more, and tells whether it is an input. An input that is
read and fails later has its line nevertheless. A file that cannot be read has none, and a
diagnostic of reading exactly if it is an input. In a file system where everything stands
under a name in a directory, no file has two lines, and where the paths are texts, no two lines
have the same name. -/
theorem composition_covers_files (h : (analyzer.analyze setting fs request).result = .ok outcome) :
    ∃ seen place set, LooksAt setting fs request seen place ∧
      seen.discover setting.workingDirectory language place request.root = .ok set ∧
      outcome.Covers set (seen.readText setting.workingDirectory) ∧
      (fs.IsWhole → set.files.Nodup ∧ ((∀ file ∈ set.files, file.bytes.IsText) →
        (outcome.composition.files.map FileComposition.name).Nodup)) := by
  obtain ⟨seen, place, hlooks, hat⟩ := analyze_ok h
  obtain ⟨set, hset, haccounts⟩ := analyzeAt_ok hat
  have hcovers := analyzeAt_covers hset hat haccounts
  refine ⟨seen, place, set, hlooks, hset, hcovers, fun hwhole => ?_⟩
  have hnodup := FileSystem.nodup_files (hlooks.isWhole hwhole) hset
  rw [hcovers.lines]
  exact ⟨hnodup, nodup_lines set _ hnodup⟩

/-- Three sources, of which one cannot be parsed and one cannot be read, and two other files, of
which one cannot be read. -/
def spottedFiles : FileSystem where
  entries :=
    [(["app"], .directory .all),
     (["app", "a.rb"], .file "é".toUTF8 .all),
     (["app", "b.rb"], .file "b(\n".toUTF8 .all),
     (["app", "c.rb"], .file ⟨#[255]⟩ .all),
     (["app", "image"], .file ⟨#[255]⟩ .all),
     (["app", "notes"], .file "x\n\n".toUTF8 .all)]
  sorted := by decide

def spottedOutcome : Outcome where
  package := mixedOutcome.package
  diagnostics :=
    [⟨⟨"/app/b.rb"⟩, .parse, "failed to parse /app/b.rb: parser produced no tree"⟩,
     ⟨⟨"/app/c.rb"⟩, .read, "failed to read file /app/c.rb: stream did not contain valid UTF-8"⟩]
  composition := ⟨[⟨"/app/a.rb", 1, true⟩, ⟨"/app/b.rb", 2, true⟩, ⟨"/app/notes", 3, false⟩]⟩
  filesAnalyzed := 1

set_option maxRecDepth 8000 in
/-- The source that cannot be parsed has its line, and of the two files that cannot be read only
the source is complained of. -/
theorem spotted_files_composed :
    (pickyAnalyzer.analyze plainSetting spottedFiles mixedRequest).result = .ok spottedOutcome ∧
    ∃ set, spottedFiles.discover ⟨"/"⟩ language ⟨"/app"⟩ none = .ok set ∧
      set.inputs = [⟨"/app/a.rb"⟩, ⟨"/app/b.rb"⟩, ⟨"/app/c.rb"⟩] ∧
      spottedOutcome.Covers set (spottedFiles.readText ⟨"/"⟩) := by
  have hanalyze :
      (pickyAnalyzer.analyze plainSetting spottedFiles mixedRequest).result =
        .ok spottedOutcome := by
    rfl
  have hnone : archive? spottedFiles ⟨"/"⟩ ⟨"/app"⟩ = none := by rfl
  have hfound : (spottedFiles.discover ⟨"/"⟩ language ⟨"/app"⟩ none).map InputSet.inputs =
      .ok [⟨"/app/a.rb"⟩, ⟨"/app/b.rb"⟩, ⟨"/app/c.rb"⟩] := by
    rfl
  obtain ⟨seen, place, set, hlooks, hset, hcovers, -⟩ := composition_covers_files hanalyze
  cases hlooks with
  | unpacked hkind => exact absurd (hnone.symm.trans hkind) nofun
  | input =>
    refine ⟨hanalyze, set, hset, ?_, hcovers⟩
    have hinputs := congrArg (Except.map InputSet.inputs) hset
    exact Except.ok.inj (hinputs.symm.trans hfound)

end Analyzer
end CallSift

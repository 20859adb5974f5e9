import CallSift.Proofs.Analysis.Accounting
import CallSift.Proofs.Analysis.ReadOnly
import CallSift.Proofs.Except
import CallSift.Proofs.Run.Ending

/-!
# Fatal and recovered faults

A fault of one file is never fatal and becomes a diagnostic. What ends an analysis or a
run is always fatal: an input that is not there, an archive that cannot be unpacked, or a
file that cannot be written. So nothing in the files of an input keeps a run from ending
well.

* `fileRecords_recovered` and `analyze_error`: the faults of files, and of analyses.
* `discover_total`: the files of an input that exists are found.
* `only_fatal_faults_escape`: which faults end what, and when there are none.
-/
namespace CallSift

namespace Fault

/-- The stages of faults that are recovered. -/
def recoveredStages : List Stage := [.read, .parse, .traversal, .normalize]

theorem stage_of_recovered {fault : Fault} (h : fault.isFatal = false) :
    fault.stage ∈ recoveredStages := by
  cases fault with
  | inputNotFound | unpack | outputWrite => cases h
  | fileRead | parse | traversal | malformedRange => simp [stage, recoveredStages]

end Fault

/-! ## Finding the files -/

namespace FileSystem

variable {fs : FileSystem} {workingDirectory input : Path} {language : Language}
  {root : Option Path}

theorem absolute?_isSome (workingDirectory : Path) {path : Path} (h : path.bytes ≠ .empty) :
    ∃ components, Path.absolute? workingDirectory path = some components := by
  rw [Path.absolute?, if_neg h]
  split
  · exact ⟨_, rfl⟩
  · exact ⟨_, rfl⟩

theorem bytes_ne_of_exists (h : fs.exists? workingDirectory input = true) :
    input.bytes ≠ .empty := by
  unfold exists? at h
  cases hstat : fs.stat workingDirectory input with
  | error error =>
    rw [hstat] at h
    cases h
  | ok found => exact (resolve_eq_ok (stat_eq_ok.mp hstat)).1

/-- Only a path that does not exist, or is none at all, keeps files from being found. -/
theorem discover_error {fault : Fault}
    (h : fs.discover workingDirectory language input root = .error fault) :
    ∃ path, fault = .inputNotFound path := by
  unfold discover at h
  repeat' split at h
  all_goals cases h
  all_goals exact ⟨_, rfl⟩

theorem discover_total (language : Language)
    (hexists : fs.exists? workingDirectory input = true)
    (hroot : ∀ path ∈ root, path.bytes ≠ .empty) :
    ∃ set, fs.discover workingDirectory language input root = .ok set := by
  obtain ⟨components, hcomponents⟩ :=
    absolute?_isSome workingDirectory (bytes_ne_of_exists hexists)
  rw [discover, if_pos hexists, hcomponents]
  cases root with
  | none => exact ⟨_, rfl⟩
  | some path =>
    obtain ⟨above, habove⟩ :=
      absolute?_isSome workingDirectory (hroot path rfl)
    simp only [habove]
    exact ⟨_, rfl⟩

end FileSystem

/-! ## Analyses and runs -/

namespace Analyzer

open FileSystem

variable {analyzer : Analyzer} {setting : Setting} {fs : FileSystem} {request : Request}
  {outcome : Outcome} {fault : Fault}

theorem fileRecords_recovered {workingDirectory root file : Path}
    (h : analyzer.fileRecords fs workingDirectory root file = .error fault) :
    fault.isFatal = false := by
  unfold fileRecords at h
  cases hparse : analyzer.parseFile fs workingDirectory file with
  | error earlier =>
    rw [hparse] at h
    cases h
    exact (parseFile_error hparse).1
  | ok references =>
    rw [hparse] at h
    obtain ⟨reference, -, herror⟩ := mapM_error h
    obtain ⟨cause, -, rfl⟩ := mapError_eq_error.mp herror
    rfl

theorem analyzeAt_error {workingDirectory place : Path}
    (h : (analyzer.analyzeAt fs workingDirectory request place).result = .error fault) :
    fault.isFatal = true := by
  unfold analyzeAt at h
  split at h
  · next hdiscover =>
    cases h
    obtain ⟨path, rfl⟩ := discover_error hdiscover
    rfl
  · cases h

theorem analyze_error (h : (analyzer.analyze setting fs request).result = .error fault) :
    fault.isFatal = true := by
  unfold analyze at h
  split at h
  · unfold analyzeArchive at h
    split at h
    · cases h
      rfl
    · exact analyzeAt_error h
  · exact analyzeAt_error h

theorem analyze_diagnostics (h : (analyzer.analyze setting fs request).result = .ok outcome) :
    ∀ diagnostic ∈ outcome.diagnostics, diagnostic.stage ∈ Fault.recoveredStages := by
  obtain ⟨seen, place, -, hat⟩ := analyze_ok h
  obtain ⟨set, -, haccounts⟩ := analyzeAt_ok hat
  intro diagnostic hdiagnostic
  rw [haccounts.diagnostics] at hdiagnostic
  obtain ⟨file, -, hsome⟩ := List.mem_filterMap.mp hdiagnostic
  split at hsome
  · cases hsome
  · next hfault =>
    cases hsome
    exact Fault.stage_of_recovered (fileRecords_recovered hfault)

theorem analyze_total (analyzer : Analyzer)
    (hexists : fs.exists? setting.workingDirectory request.input = true)
    (hnone : archive? fs setting.workingDirectory request.input = none)
    (hroot : ∀ root ∈ request.root, root.bytes ≠ .empty) :
    ∃ outcome, (analyzer.analyze setting fs request).result = .ok outcome := by
  obtain ⟨set, hset⟩ := discover_total language hexists hroot
  obtain ⟨outcome, houtcome, -⟩ := analyzeAt_accounts analyzer hset
  exact ⟨outcome, by simpa only [analyze, hnone] using houtcome⟩

theorem run_error {outputs : Outputs}
    (h : (analyzer.run setting fs request outputs).result = .error fault) :
    fault.isFatal = true := by
  have hends := analyzer.run_ends setting fs request outputs
  rw [h] at hends
  generalize (analyzer.run setting fs request outputs).fileSystem = left at hends
  cases hends with
  | unanalyzed hanalysis => exact analyze_error hanalysis
  | unwritten | halfWritten => rfl

/-- A run whose analysis succeeds and leaves the file system as it was succeeds where its files
can be written. Writing the results takes nothing from the composition. -/
theorem run_total {outputs : Outputs}
    (hanalysis : (analyzer.analyze setting fs request).result = .ok outcome)
    (hsame : (analyzer.analyze setting fs request).fileSystem = fs)
    (hresults : fs.IsWritable setting.workingDirectory outputs.results)
    (hcomposition : ∀ composition ∈ outputs.composition,
      fs.IsWritable setting.workingDirectory composition) :
    (analyzer.run setting fs request outputs).result = .ok outcome := by
  have hends := analyzer.run_ends setting fs request outputs
  generalize (analyzer.run setting fs request outputs).fileSystem = left at hends
  generalize (analyzer.run setting fs request outputs).result = result at hends ⊢
  cases hends with
  | unanalyzed hfailed => cases hanalysis.symm.trans hfailed
  | unwritten error _ hnot => exact absurd (hsame.symm ▸ hresults) hnot
  | halfWritten error _ hasked hwrites hnot =>
    rw [hsame] at hwrites hnot
    obtain ⟨target, permissions, hcan⟩ := hcomposition _ hasked
    exact absurd (hcan.insert hwrites.accepts hwrites.write _) hnot
  | written hfound => exact hfound.symm.trans hanalysis
  | bothWritten hfound => exact hfound.symm.trans hanalysis

end Analyzer

/-! ## Commands -/

namespace CommandLine

theorem valueOf_ne {setters : List Setter} {option : ValueOption} {bytes : Bytes}
    (hpaths : hasPaths setters = true) (htakes : option.takesPath = true)
    (h : valueOf setters option = some bytes) : bytes ≠ .empty := by
  obtain ⟨setter, hmem, hvalue⟩ := List.exists_of_findSome?_eq_some h
  have hpath := List.all_eq_true.mp hpaths setter hmem
  cases setter with
  | verbose => cases hvalue
  | value other given =>
    simp only at hvalue hpath
    split at hvalue
    · next hsame =>
      obtain rfl := Option.some.inj hvalue
      simpa [hsame, htakes] using hpath
    · cases hvalue

theorem root_ne {words : List Bytes} {command : CommandLine}
    (h : ofWords? words = some command) : ∀ root ∈ command.request.root, root.bytes ≠ .empty := by
  unfold ofWords? at h
  obtain ⟨setters, -, h⟩ := Option.bind_eq_some_iff.mp h
  split at h
  · next hproper =>
    obtain ⟨hproper, -⟩ := Bool.and_eq_true_iff.mp hproper
    obtain ⟨-, hpaths⟩ := Bool.and_eq_true_iff.mp hproper
    obtain ⟨input, -, h⟩ := Option.bind_eq_some_iff.mp h
    obtain ⟨results, -, h⟩ := Option.bind_eq_some_iff.mp h
    obtain rfl := Option.some.inj h
    intro root hroot
    obtain ⟨bytes, hvalue, rfl⟩ := Option.map_eq_some_iff.mp hroot
    exact valueOf_ne hpaths rfl hvalue
  · cases h

/-- A command succeeds whatever the files of its input hold, if the input is there and no archive,
the allow-list can be loaded and the outputs can be written. -/
theorem runWords_code {words : List Bytes} {command : CommandLine} {setting : Setting}
    {fs : FileSystem} {list : Option AllowList} (hwords : ofWords? words = some command)
    (hlist : command.allowList setting fs = .ok list)
    (hexists : fs.exists? setting.workingDirectory command.request.input = true)
    (hnone : Analyzer.archive? fs setting.workingDirectory command.request.input = none)
    (hresults : fs.IsWritable setting.workingDirectory command.outputs.results)
    (hcomposition : ∀ composition ∈ command.outputs.composition,
      fs.IsWritable setting.workingDirectory composition) (parse : String → Option Node) :
    (runWords words setting parse fs).ending.code = 0 := by
  let analyzer : Analyzer := { allowList := list, limit := defaultDepth, parse }
  obtain ⟨outcome, hanalysis⟩ := Analyzer.analyze_total analyzer hexists hnone (root_ne hwords)
  have hsame : (analyzer.analyze setting fs command.request).fileSystem = fs :=
    Analyzer.analyze_fileSystem fun kind _ hkind => absurd (hnone.symm.trans hkind) nofun
  have hrun := Analyzer.run_total hanalysis hsame hresults hcomposition
  simp only [runWords, hwords, run, hlist, hrun, analyzer] at hrun ⊢
  rfl

end CommandLine

namespace Analyzer

/-- **Faults.** Analyses and runs end with fatal faults only, and have diagnostics of recovered
stages only. An input that exists and is no archive is analyzed, unless an empty path is given as
the root; and a command over it ends with code 0, whatever stands in the files, if its
allow-list can be loaded and its outputs can be written. -/
theorem only_fatal_faults_escape :
    (∀ (analyzer : Analyzer) setting fs request fault,
      (analyzer.analyze setting fs request).result = .error fault → fault.isFatal = true) ∧
    (∀ (analyzer : Analyzer) setting fs request outputs fault,
      (analyzer.run setting fs request outputs).result = .error fault → fault.isFatal = true) ∧
    (∀ (analyzer : Analyzer) setting fs request outcome,
      (analyzer.analyze setting fs request).result = .ok outcome →
      ∀ diagnostic ∈ outcome.diagnostics,
        diagnostic.stage ∈ [Stage.read, .parse, .traversal, .normalize]) ∧
    (∀ (analyzer : Analyzer) (setting : Setting) (fs : FileSystem) (request : Request),
      fs.exists? setting.workingDirectory request.input = true →
      archive? fs setting.workingDirectory request.input = none →
      (∀ root ∈ request.root, root.bytes ≠ .empty) →
      ∃ outcome, (analyzer.analyze setting fs request).result = .ok outcome) ∧
    ∀ (words : List Bytes) (command : CommandLine) (setting : Setting) (fs : FileSystem) list
      (parse : String → Option Node),
      CommandLine.ofWords? words = some command →
      command.allowList setting fs = .ok list →
      fs.exists? setting.workingDirectory command.request.input = true →
      archive? fs setting.workingDirectory command.request.input = none →
      fs.IsWritable setting.workingDirectory command.outputs.results →
      (∀ composition ∈ command.outputs.composition,
        fs.IsWritable setting.workingDirectory composition) →
      (CommandLine.runWords words setting parse fs).ending.code = 0 :=
  ⟨fun _ _ _ _ _ => analyze_error, fun _ _ _ _ _ _ => run_error,
    fun _ _ _ _ _ => analyze_diagnostics, fun analyzer _ _ _ => analyze_total analyzer,
    fun _ _ _ _ _ parse hwords hlist hexists hnone hresults hcomposition =>
      CommandLine.runWords_code hwords hlist hexists hnone hresults hcomposition parse⟩

def mixedCommand : CommandLine where
  request := mixedRequest
  outputs := ⟨⟨"/out"⟩, some ⟨"/out"⟩⟩
  config := none
  verbose := false

theorem mixedFiles_isWritable : mixedFiles.IsWritable ⟨"/"⟩ ⟨"/out"⟩ :=
  ⟨["out"], .all, by rfl, .inr ⟨by rfl, by rfl, rfl⟩⟩

set_option maxRecDepth 4000 in
/-- One input cannot be parsed and the command succeeds; a command over an input that is not there
fails. -/
theorem mixed_command_recovers :
    (CommandLine.runWords ["-i", "/app", "-o/out", "--composition=/out"] plainSetting
      pickyAnalyzer.parse mixedFiles).ending.code = 0 ∧
    (∀ diagnostic ∈ mixedOutcome.diagnostics,
      diagnostic.stage ∈ [Stage.read, .parse, .traversal, .normalize]) ∧
    (Fault.inputNotFound ⟨"/no"⟩).isFatal = true := by
  obtain ⟨hanalyze, -, hdiagnostics, -, hcommand⟩ := only_fatal_faults_escape
  have hmissing : (pickyAnalyzer.analyze plainSetting mixedFiles
      ⟨⟨"/no"⟩, none, none, none⟩).result = .error (.inputNotFound ⟨"/no"⟩) := by
    rfl
  have hwords : CommandLine.ofWords? ["-i", "/app", "-o/out", "--composition=/out"] =
      some mixedCommand := by
    decide
  refine ⟨hcommand _ _ plainSetting mixedFiles none pickyAnalyzer.parse hwords (by rfl) (by rfl)
    (by rfl) mixedFiles_isWritable ?_, hdiagnostics _ _ _ _ _ mixedFiles_analyze,
    hanalyze _ _ _ _ _ hmissing⟩
  rintro _ ⟨⟩
  exact mixedFiles_isWritable

end Analyzer
end CallSift

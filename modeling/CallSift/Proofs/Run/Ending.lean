import CallSift.Proofs.FileSystem.Write
import CallSift.Run

/-!
# How a run ends

A run fails with its analysis, or over one of the two files that it writes, or it
succeeds. Each ending leaves a file system of its own.

* `FileSystem.writeDocument_cases`: how the writing of a document ends.
* `Analyzer.Ends` and `Analyzer.run_ends`: how a run ends, and what it leaves.
-/
namespace CallSift

/-- The bytes that a value is written as. -/
def Json.Value.document (value : Json.Value) : ByteArray := (value.pretty ++ "\n").toUTF8

namespace FileSystem

/-- A document cannot be written, and nothing changes, or a file holds it afterwards. -/
theorem writeDocument_cases (fs : FileSystem) (workingDirectory file : Path)
    (value : Json.Value) :
    (¬ fs.IsWritable workingDirectory file ∧ ∃ error,
      fs.writeDocument workingDirectory file value =
        ⟨fs, [], .error (.outputWrite file (.os error))⟩) ∨
    ∃ target permissions, fs.WritesTo workingDirectory file target permissions ∧
      fs.writeDocument workingDirectory file value =
        ⟨fs.insert target (.file value.document permissions), [.wrote file], .ok ()⟩ := by
  unfold writeDocument
  cases hwrite : fs.write workingDirectory file (value.pretty ++ "\n").toUTF8 with
  | error error =>
    refine .inl ⟨fun hwritable => ?_, error, rfl⟩
    obtain ⟨after, hafter⟩ := write_isOk.mpr hwritable
    cases hwrite.symm.trans hafter
  | ok after =>
    obtain ⟨target, permissions, hwrites, rfl⟩ := write_eq_ok.mp hwrite
    exact .inr ⟨target, permissions, hwrites, rfl⟩

end FileSystem

namespace Analyzer

/-- How a run can end after its analysis, with the file system that it leaves. -/
inductive Ends (workingDirectory : Path) (outputs : Outputs) (analysis : Activity Outcome) :
    FileSystem → Except Fault Outcome → Prop where
  /-- The analysis has failed. -/
  | unanalyzed {fault : Fault} (hanalysis : analysis.result = .error fault) :
      Ends workingDirectory outputs analysis analysis.fileSystem (.error fault)
  /-- The results cannot be written. -/
  | unwritten {outcome : Outcome} (error : OsError) (hanalysis : analysis.result = .ok outcome)
      (hresults : ¬ analysis.fileSystem.IsWritable workingDirectory outputs.results) :
      Ends workingDirectory outputs analysis analysis.fileSystem
        (.error (.outputWrite outputs.results (.os error)))
  /-- The results are written, and the composition cannot be. -/
  | halfWritten {outcome : Outcome} {composition : Path} {target : Location}
      {permissions : Permissions} (error : OsError) (hanalysis : analysis.result = .ok outcome)
      (hasked : outputs.composition = some composition)
      (hresults :
        analysis.fileSystem.WritesTo workingDirectory outputs.results target permissions)
      (hcomposition : ¬ (analysis.fileSystem.insert target
        (.file outcome.results.encode.document permissions)).IsWritable workingDirectory
          composition) :
      Ends workingDirectory outputs analysis
        (analysis.fileSystem.insert target (.file outcome.results.encode.document permissions))
        (.error (.outputWrite composition (.os error)))
  /-- Only the results are asked for, and written. -/
  | written {outcome : Outcome} {target : Location} {permissions : Permissions}
      (hanalysis : analysis.result = .ok outcome) (hasked : outputs.composition = none)
      (hresults :
        analysis.fileSystem.WritesTo workingDirectory outputs.results target permissions) :
      Ends workingDirectory outputs analysis
        (analysis.fileSystem.insert target (.file outcome.results.encode.document permissions))
        (.ok outcome)
  /-- The results are written, and then the composition. -/
  | bothWritten {outcome : Outcome} {composition : Path} {target last : Location}
      {permissions lastPermissions : Permissions} (hanalysis : analysis.result = .ok outcome)
      (hasked : outputs.composition = some composition)
      (hresults :
        analysis.fileSystem.WritesTo workingDirectory outputs.results target permissions)
      (hcomposition : (analysis.fileSystem.insert target
        (.file outcome.results.encode.document permissions)).WritesTo workingDirectory
          composition last lastPermissions) :
      Ends workingDirectory outputs analysis
        ((analysis.fileSystem.insert target
          (.file outcome.results.encode.document permissions)).insert last
            (.file outcome.composition.encode.document lastPermissions))
        (.ok outcome)

theorem run_ends (analyzer : Analyzer) (setting : Setting) (fs : FileSystem) (request : Request)
    (outputs : Outputs) :
    Ends setting.workingDirectory outputs (analyzer.analyze setting fs request)
      (analyzer.run setting fs request outputs).fileSystem
      (analyzer.run setting fs request outputs).result := by
  unfold run
  rcases hresult : analyzer.analyze setting fs request with ⟨seen, log, fault | outcome⟩
  · exact .unanalyzed rfl
  simp only [Activity.andThen, Outputs.write]
  rcases seen.writeDocument_cases setting.workingDirectory outputs.results outcome.results.encode
    with ⟨hnot, error, hwrite⟩ | ⟨target, permissions, hresults, hwrite⟩
  · rw [hwrite]
    exact .unwritten error rfl hnot
  rw [hwrite]
  cases hasked : outputs.composition with
  | none => exact .written rfl hasked hresults
  | some composition =>
    simp only
    rcases FileSystem.writeDocument_cases
      (seen.insert target (.file outcome.results.encode.document permissions))
      setting.workingDirectory composition outcome.composition.encode
      with ⟨hnot, error, hwrite⟩ | ⟨last, lastPermissions, hcomposition, hwrite⟩
    · rw [hwrite]
      exact .halfWritten error rfl hasked hresults hnot
    · rw [hwrite]
      exact .bothWritten rfl hasked hresults hcomposition

end Analyzer
end CallSift

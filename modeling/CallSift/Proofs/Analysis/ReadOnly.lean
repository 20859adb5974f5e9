import CallSift.CommandLine
import CallSift.Proofs.Analysis.Accounting
import CallSift.Proofs.Archive.Unpack
import CallSift.Proofs.FileSystem.Below

/-!
# Analyses change nothing

An analysis reads. What it makes is a directory of its own for an archive, and it takes
that away on every way out: after a success, after unpacking that has failed before or
amid the members, and after a search or a root that has failed later.

* `analyze_outside`: outside of its own directory an analysis changes nothing.
* `analysis_leaves_no_trace`: the file system is as before when the directory can be
  taken away, and when a command fails over its allow-list.
-/
namespace CallSift

namespace Analyzer

/-- What an archive is unpacked into can be taken away again. -/
def TakesAway (setting : Setting) (fs : FileSystem) (request : Request) : Prop :=
  ∀ kind directory, archive? fs setting.workingDirectory request.input = some kind →
    fs.freePlace? setting kind.directoryStart = some directory →
    ((fs.enter directory).unpackInto setting request.input kind
      directory.location).1.isRemovable directory.location = true

section
variable (analyzer : Analyzer) (setting : Setting) (fs : FileSystem) (request : Request)

/-! ## What an analysis leaves -/

theorem analyzeAt_fileSystem (workingDirectory place : Path) :
    (analyzer.analyzeAt fs workingDirectory request place).fileSystem = fs := by
  unfold analyzeAt
  split <;> rfl

/-- An archive leaves what is left of its own directory, if it gets one, whether it is unpacked,
and whether what is unpacked can be analyzed. -/
theorem analyzeArchive_fileSystem (kind : ArchiveKind) :
    (analyzer.analyzeArchive setting fs request kind).fileSystem =
      match fs.freePlace? setting kind.directoryStart with
      | none => fs
      | some directory =>
        ((fs.enter directory).unpackInto setting request.input kind directory.location).1.leave
          directory := by
  unfold analyzeArchive FileSystem.unpack
  cases fs.freePlace? setting kind.directoryStart with
  | none => rfl
  | some directory =>
    rcases hunpack : (fs.enter directory).unpackInto setting request.input kind
      directory.location with ⟨grown, _ | _⟩
    · simp only [hunpack]
    · simp only [hunpack, analyzeAt_fileSystem]

end

variable {analyzer : Analyzer} {setting : Setting} {fs : FileSystem} {request : Request}

theorem unpackInto_enter {kind : ArchiveKind} {directory : OwnDirectory}
    (h : fs.freePlace? setting kind.directoryStart = some directory) :
    FileSystem.Grown directory.location (fs.enter directory)
      ((fs.enter directory).unpackInto setting request.input kind directory.location).1 := by
  obtain ⟨hresolve, hfree⟩ := FileSystem.freePlace?_free h
  have hroot := (FileSystem.resolve_missing hresolve).1
  exact FileSystem.unpackInto_grown (FileSystem.enter_isTree hfree hroot) _ _ _

/-- Outside of the directory that it makes for itself an analysis changes nothing, even when it
cannot take that away. -/
theorem analyze_outside {other : Location}
    (h : ∀ kind directory, archive? fs setting.workingDirectory request.input = some kind →
      fs.freePlace? setting kind.directoryStart = some directory →
      ¬ directory.location <+: other) :
    (analyzer.analyze setting fs request).fileSystem.get? other = fs.get? other := by
  unfold analyze
  cases hkind : archive? fs setting.workingDirectory request.input with
  | none => rw [analyzeAt_fileSystem]
  | some kind =>
    rw [analyzeArchive_fileSystem]
    cases hplace : fs.freePlace? setting kind.directoryStart with
    | none => rfl
    | some directory =>
      have hroot := (FileSystem.resolve_missing (FileSystem.freePlace?_free hplace).1).1
      exact FileSystem.get?_leave (unpackInto_enter hplace) (h kind directory hkind hplace) hroot

theorem analyze_fileSystem (h : TakesAway setting fs request) :
    (analyzer.analyze setting fs request).fileSystem = fs := by
  unfold analyze
  cases hkind : archive? fs setting.workingDirectory request.input with
  | none => rw [analyzeAt_fileSystem]
  | some kind =>
    rw [analyzeArchive_fileSystem]
    cases hplace : fs.freePlace? setting kind.directoryStart with
    | none => rfl
    | some directory =>
      exact FileSystem.leave_grown (FileSystem.freePlace?_free hplace).2 (unpackInto_enter hplace)
        (h kind directory hkind hplace)

/-- **No trace.** After an analysis the file system is what it was before, the temporary directory
included, whether the analysis succeeded or failed and where it failed, as long as what was
unpacked can be taken away. A command whose allow-list cannot be loaded fails with that
and changes nothing either, its outputs included. -/
theorem analysis_leaves_no_trace :
    (∀ (analyzer : Analyzer) setting fs request, TakesAway setting fs request →
      (analyzer.analyze setting fs request).fileSystem = fs) ∧
    ∀ (command : CommandLine) setting parse fs fault,
      command.allowList setting fs = .error fault →
      (command.run setting parse fs).ending = .failed fault.message ∧
        (command.run setting parse fs).fileSystem = fs := by
  refine ⟨fun _ _ _ _ h => analyze_fileSystem h, ?_⟩
  intro command setting parse fs fault h
  rw [CommandLine.run, h]
  exact ⟨rfl, rfl⟩

/-- A gem without data, and a list that is not one. -/
def emptyGemFiles : FileSystem where
  entries :=
    [(["c.json"], .file .empty .all), (["t"], .directory .all), (["x.gem"], .file .empty .all)]
  sorted := by decide

def gemSetting : Setting := ⟨⟨"/"⟩, ⟨"/t"⟩, ["1"]⟩

def gemCommand : CommandLine where
  request := ⟨⟨"/x.gem"⟩, none, none, none⟩
  outputs := ⟨⟨"/c.json"⟩, none⟩
  config := some ⟨"/c.json"⟩
  verbose := false

theorem gem_directory : emptyGemFiles.freePlace? gemSetting "gem-" =
    some ⟨⟨"/t/gem-1"⟩, ["t", "gem-1"]⟩ := by
  rfl

theorem empty_gem_unpacked : (emptyGemFiles.enter ⟨⟨"/t/gem-1"⟩, ["t", "gem-1"]⟩).unpackInto
    gemSetting ⟨"/x.gem"⟩ .gem ["t", "gem-1"] =
      (emptyGemFiles.enter ⟨⟨"/t/gem-1"⟩, ["t", "gem-1"]⟩, .error .noDataMember) := by
  rfl

/-- A directory is made for the gem, which cannot be unpacked, and is taken away again. The list
is refused before anything is written over it. -/
theorem empty_gem_leaves_no_trace :
    (pickyAnalyzer.analyze gemSetting emptyGemFiles gemCommand.request).result =
      .error (.unpack ⟨"/x.gem"⟩ .noDataMember) ∧
    (pickyAnalyzer.analyze gemSetting emptyGemFiles gemCommand.request).fileSystem =
      emptyGemFiles ∧
    (gemCommand.run gemSetting pickyAnalyzer.parse emptyGemFiles).fileSystem =
      emptyGemFiles := by
  have hkind : archive? emptyGemFiles ⟨"/"⟩ ⟨"/x.gem"⟩ = some .gem := by rfl
  have htaken : TakesAway gemSetting emptyGemFiles gemCommand.request := by
    intro kind directory harchive hplace
    obtain rfl := Option.some.inj (hkind.symm.trans harchive)
    obtain rfl := Option.some.inj (gem_directory.symm.trans hplace)
    rw [show gemCommand.request.input = ⟨"/x.gem"⟩ from rfl, empty_gem_unpacked]
    decide
  have hrefused : gemCommand.allowList gemSetting emptyGemFiles =
      .error (.malformed ⟨"/c.json"⟩) := by
    rfl
  obtain ⟨hanalysis, hcommand⟩ := analysis_leaves_no_trace
  exact ⟨by rfl, hanalysis pickyAnalyzer gemSetting emptyGemFiles gemCommand.request htaken,
    (hcommand gemCommand gemSetting pickyAnalyzer.parse emptyGemFiles _ hrefused).2⟩

end Analyzer
end CallSift

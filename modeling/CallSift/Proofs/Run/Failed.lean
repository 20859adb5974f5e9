import CallSift.Proofs.Analysis.ReadOnly
import CallSift.Proofs.Analysis.Unpacked
import CallSift.Proofs.Run.Ending

/-!
# What a failed run leaves behind

Nothing is written before the analysis has succeeded, and the composition only after the
results. So a failed run leaves everything as it was, or complete results and no
composition. Only what cannot be taken away of an unpacked archive stays as well.

* `LeftAs`: a file system after an analysis, compared with what is expected.
* `failed_run_leaves`: what is there after a failed run.
* `locked_archive_stays`: an archive of which something stays.
-/
namespace CallSift.Analyzer

open FileSystem

/-- A file system is what was expected, except in the directory that an analysis made for itself,
and there too if that can be taken away. -/
structure LeftAs (setting : Setting) (before : FileSystem) (request : Request)
    (left expected : FileSystem) : Prop where
  outside : ∀ other, (∀ kind directory,
    archive? before setting.workingDirectory request.input = some kind →
    before.freePlace? setting kind.directoryStart = some directory →
    ¬ directory.location <+: other) → left.get? other = expected.get? other
  whole : TakesAway setting before request → left = expected

section
variable (analyzer : Analyzer) (setting : Setting) (fs : FileSystem) (request : Request)

theorem analyze_leftAs :
    LeftAs setting fs request (analyzer.analyze setting fs request).fileSystem fs :=
  ⟨fun _ => analyze_outside, analyze_fileSystem⟩

end

/-- The same file written in both keeps them alike. -/
theorem LeftAs.insert {setting : Setting} {before : FileSystem} {request : Request}
    {left expected : FileSystem} (h : LeftAs setting before request left expected)
    {target : Location} (hroot : target ≠ []) (entry : Entry) :
    LeftAs setting before request (left.insert target entry) (expected.insert target entry) where
  outside other hother := by
    rw [get?_insert hroot, get?_insert hroot, h.outside other hother]
  whole htaken := by rw [h.whole htaken]

/-- **Failed runs.** When a run fails, its analysis has failed or the results could not be
written, and then nothing has changed; or the composition could not be written, and then
the results are complete in the file they were to be written to, nothing else has changed,
and the path for the composition does not lead to that file. -/
theorem failed_run_leaves (analyzer : Analyzer) (setting : Setting) (fs : FileSystem)
    (request : Request) (outputs : Outputs) {fault : Fault}
    (h : (analyzer.run setting fs request outputs).result = .error fault) :
    let left := (analyzer.run setting fs request outputs).fileSystem
    ((analyzer.analyze setting fs request).result = .error fault ∨
        ∃ error, fault = .outputWrite outputs.results (.os error)) ∧
      LeftAs setting fs request left fs ∨
    ∃ outcome composition error target permissions,
      (analyzer.analyze setting fs request).result = .ok outcome ∧
      outputs.composition = some composition ∧
      fault = .outputWrite composition (.os error) ∧
      let file : Entry := .file outcome.results.encode.document permissions
      left.stat setting.workingDirectory outputs.results = .ok (target, file) ∧
      left.stat setting.workingDirectory composition ≠ .ok (target, file) ∧
      LeftAs setting fs request left (fs.insert target file) := by
  intro left
  have hends := analyzer.run_ends setting fs request outputs
  have hleft := analyzer.analyze_leftAs setting fs request
  rw [h] at hends
  change Ends _ _ _ left _ at hends
  generalize left = left at hends
  cases hends with
  | unanalyzed hanalysis => exact .inl ⟨.inl hanalysis, hleft⟩
  | unwritten error hanalysis hresults => exact .inl ⟨.inr ⟨error, rfl⟩, hleft⟩
  | @halfWritten outcome composition target permissions error hanalysis hasked hresults
      hcomposition =>
    refine .inr ⟨outcome, composition, error, target, permissions, hanalysis, hasked, rfl,
      hresults.stat _, fun hsame => hcomposition ?_, hleft.insert hresults.accepts.ne_root _⟩
    exact ⟨target, permissions, writesTo_of_stat hsame hresults.write⟩

set_option maxRecDepth 4000 in
/-- The results of a run whose composition has no directory. -/
theorem mixed_run_leaves_results : ∃ target permissions,
    let run := pickyAnalyzer.run plainSetting mixedFiles mixedRequest ⟨⟨"/out"⟩, some ⟨"/no/c"⟩⟩
    run.result = .error (.outputWrite ⟨"/no/c"⟩ (.os .notFound)) ∧
    run.fileSystem.stat ⟨"/"⟩ ⟨"/out"⟩ =
      .ok (target, .file mixedOutcome.results.encode.document permissions) ∧
    run.fileSystem = mixedFiles.insert target
      (.file mixedOutcome.results.encode.document permissions) := by
  have hnone : archive? mixedFiles ⟨"/"⟩ ⟨"/app"⟩ = none := by rfl
  have hresult : (pickyAnalyzer.run plainSetting mixedFiles mixedRequest
      ⟨⟨"/out"⟩, some ⟨"/no/c"⟩⟩).result = .error (.outputWrite ⟨"/no/c"⟩ (.os .notFound)) := by
    rfl
  have htaken : TakesAway plainSetting mixedFiles mixedRequest := by
    intro kind directory hkind
    cases hnone.symm.trans hkind
  rcases failed_run_leaves _ _ _ _ _ hresult with ⟨hanalysis | ⟨error, hfault⟩, -⟩ |
    ⟨outcome, composition, error, target, permissions, hanalysis, -, -, hstat, -, hleft⟩
  · cases mixedFiles_analyze.symm.trans hanalysis
  · exact absurd (Fault.outputWrite.inj hfault).1 (by decide)
  · obtain rfl := Except.ok.inj (mixedFiles_analyze.symm.trans hanalysis)
    exact ⟨target, permissions, hresult, hstat, hleft.whole htaken⟩

end CallSift.Analyzer

/-! ## An archive that cannot be taken away -/

namespace CallSift.LockedArchive

open FileSystem Analyzer

/-- The header of an empty file in a directory. -/
def fileHeader : List UInt8 :=
  [100, 47, 97] ++ List.replicate 97 0 ++ [54, 52, 52] ++ List.replicate 21 0 ++ [48] ++
    List.replicate 23 0 ++ [49, 51, 48, 50] ++ List.replicate 360 0

/-- The header of the directory, in which nothing may be changed. -/
def directoryHeader : List UInt8 :=
  [100, 47] ++ List.replicate 98 0 ++ [53, 53, 53] ++ List.replicate 21 0 ++ [48] ++
    List.replicate 23 0 ++ [49, 49, 52, 50] ++ List.replicate 360 0

def tar : List UInt8 := fileHeader ++ directoryHeader ++ List.replicate 512 0

/-- The tar file in one stored block. -/
def tarGz : ByteArray :=
  ⟨([0x1F, 0x8B, 8, 0, 0, 0, 0, 0, 0, 255, 1, 0, 6, 255, 249] ++ tar ++
    [31, 232, 164, 82, 0, 6, 0, 0]).toArray⟩

theorem decompress_tarGz : (Gzip.decompress tarGz).bytes = ⟨tar.toArray⟩ := by
  have hheader : Gzip.header? tarGz = some 10 := by decide +kernel
  have hlast : Deflate.bits tarGz (8 * 10) 1 = .ok 1 := by decide +kernel
  have hkind : Deflate.bits tarGz (8 * 10 + 1) 2 = .ok 0 := by decide +kernel
  have hlength : Deflate.bits tarGz (8 * (10 + 1)) 16 = .ok 1536 := by decide +kernel
  have hcomplement : Deflate.bits tarGz (8 * (10 + 1) + 16) 16 = .ok 63999 := by decide +kernel
  have hfits : 10 + 5 + 1536 ≤ tarGz.size := by decide +kernel
  have hcontent : tarGz.extract (10 + 5) (10 + 5 + 1536) = ⟨tar.toArray⟩ :=
    extract_append rfl (by decide +kernel)
  rw [decompress_stored hlast hkind hlength hcomplement (by decide) hfits hheader]
  exact hcontent

theorem fileHeader_isEarly :
    (Tar.Header.mk ⟨fileHeader.toArray⟩).IsEarly [100, 47, 97] 0o644 0 where
  more := by decide +kernel
  sum := by rw [Tar.checksum_ofList]; decide +kernel
  size := by decide +kernel
  memberType := by decide +kernel
  early := by decide +kernel
  mode := by decide +kernel
  named := by decide +kernel

theorem directoryHeader_isEarly :
    (Tar.Header.mk ⟨directoryHeader.toArray⟩).IsEarly [100, 47] 0o555 0 where
  more := by decide +kernel
  sum := by rw [Tar.checksum_ofList]; decide +kernel
  size := by decide +kernel
  memberType := by decide +kernel
  early := by decide +kernel
  mode := by decide +kernel
  named := by decide +kernel

def file : Tar.Member := ⟨⟨"d/a"⟩, .file, some 0o644, .empty, true⟩

def directory : Tar.Member := ⟨⟨"d/"⟩, .directory false, some 0o555, .empty, true⟩

theorem members_tar {stream : Stream} (h : stream.bytes = ⟨tar.toArray⟩) :
    Tar.members stream = ⟨[file, directory], none⟩ := by
  have hsize : stream.bytes.size = 1536 := by
    rw [h]
    decide +kernel
  have hblock : ∀ position block, position + Tar.blockSize ≤ 1536 →
      (tar.drop position).take Tar.blockSize = block →
      stream.block? position Tar.blockSize = .ok (some ⟨block.toArray⟩) := by
    intro position block hfits hblock
    subst hblock
    rw [Stream.block?, hsize, if_pos hfits, Stream.available, h, extract_ofList,
      Nat.add_sub_cancel_left]
  have hempty : ∀ position, stream.available position 0 = .empty := by
    intro position
    rw [Stream.available, h, extract_ofList, Nat.add_zero, Nat.sub_self]
    rfl
  have hfirst := hblock 0 fileHeader (by decide) (by decide +kernel)
  have hsecond := hblock 512 directoryHeader (by decide)
    (by decide +kernel)
  have hthird := hblock 1024 (List.replicate 512 0) (by decide)
    (by decide +kernel)
  have hend : (Tar.Header.mk ⟨(List.replicate 512 (0 : UInt8)).toArray⟩).isEnd = true :=
    (Tar.isEnd_ofList _).trans (by decide +kernel)
  rw [Tar.members, hsize, show 1536 / Tar.blockSize + 2 = 2 + 1 + 1 + 1 from rfl,
    Tar.membersFrom_early fileHeader_isEarly hfirst (by decide), hempty,
    show Tar.behind (0 + Tar.blockSize) 0 = 512 from rfl,
    Tar.membersFrom_early directoryHeader_isEarly hsecond (by decide), hempty,
    show Tar.behind (512 + Tar.blockSize) 0 = 1024 from rfl,
    Tar.membersFrom_end hthird hend]
  rfl

def way : Location := Note.directory.location ++ [.ofText "d"]

def unpacked (archive : ByteArray) : FileSystem :=
  ((((Note.files archive).enter Note.directory).insert way (.directory .all)).insert
    (way ++ [.ofText "a"]) (.file .empty ⟨true, true, false⟩)).insert way
    (.directory ⟨true, false, true⟩)

section
variable {archive : ByteArray} (h : (Gzip.decompress archive).bytes = ⟨tar.toArray⟩)
include h

theorem unpack_files : (Note.files archive).unpack Note.setting ⟨"/x.tgz"⟩ .tarGz =
    (unpacked archive, .ok Note.directory) :=
  Note.unpack_early (congrArg Except.ok (members_tar h)) (by decide) (by rfl)

/-- The results cannot be written, and what was unpacked stays. -/
theorem run_files :
    let run := pickyAnalyzer.run Note.setting (Note.files archive) (Note.request ⟨"/x.tgz"⟩)
      ⟨⟨"/no/out"⟩, none⟩
    run.result = .error (.outputWrite ⟨"/no/out"⟩ (.os .notFound)) ∧
      run.fileSystem = unpacked archive := by
  have hkind : archive? (Note.files archive) Note.setting.workingDirectory ⟨"/x.tgz"⟩ =
      some .tarGz := by
    rfl
  have hkept : (unpacked archive).leave Note.directory = unpacked archive := by rfl
  simp only [run, analyze, hkind, analyzeArchive, unpack_files h, analyzeAt_fileSystem, hkept]
  exact ⟨by rfl, by rfl⟩

end

end CallSift.LockedArchive

namespace CallSift.Analyzer

open LockedArchive

/-- A file that was not there before the run. -/
theorem locked_archive_stays :
    let run := pickyAnalyzer.run Note.setting (Note.files tarGz) (Note.request ⟨"/x.tgz"⟩)
      ⟨⟨"/no/out"⟩, none⟩
    run.result = .error (.outputWrite ⟨"/no/out"⟩ (.os .notFound)) ∧
      (Note.files tarGz).get? (way ++ [.ofText "a"]) = none ∧
      run.fileSystem.get? (way ++ [.ofText "a"]) = some (.file .empty ⟨true, true, false⟩) := by
  obtain ⟨hresult, hleft⟩ := run_files decompress_tarGz
  refine ⟨hresult, by rfl, ?_⟩
  rw [hleft]
  rfl

end CallSift.Analyzer

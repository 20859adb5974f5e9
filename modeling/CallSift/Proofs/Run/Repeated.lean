import CallSift.Proofs.Discovery.Again
import CallSift.Proofs.Run.Persisted
import CallSift.Proofs.Run.Recovery

/-!
# Running again

A run leaves two files behind, and the next one finds them in place. If they are none of
its inputs, it reads what the first one read and writes what the first one wrote. So it
answers the same and leaves the results as they are.

* `analyzeAt_repeats`: an analysis with the same inputs has the same outcome.
* `run_writes_again`: a run that finds its files in place writes them again.
* `second_run_repeats`: a second run changes nothing of what the first one found.
-/
namespace CallSift

namespace FileSystem

/-- A path leads to a file with this content, which may be written. -/
def Stores (fs : FileSystem) (workingDirectory path : Path) (location : Location)
    (content : ByteArray) : Prop :=
  ∃ permissions, fs.stat workingDirectory path = .ok (location, .file content permissions) ∧
    permissions.write = true

variable {fs : FileSystem} {workingDirectory path : Path} {location target : Location}
  {content : ByteArray} {permissions kept : Permissions}

theorem Stores.isWritable (h : fs.Stores workingDirectory path location content) :
    fs.IsWritable workingDirectory path := by
  obtain ⟨permissions, hstat, hwrite⟩ := h
  exact ⟨location, permissions, writesTo_of_stat hstat hwrite⟩

theorem WritesTo.stores (h : fs.WritesTo workingDirectory path target permissions)
    (content : ByteArray) : (fs.insert target (.file content permissions)).Stores workingDirectory
      path target content :=
  ⟨permissions, h.stat content, h.write⟩

/-- Where something stands, it is written to that place. -/
theorem WritesTo.eq_of_stat (h : fs.WritesTo workingDirectory path target permissions)
    (hstat : fs.stat workingDirectory path = .ok (location, .file content kept)) :
    target = location ∧ permissions = kept := by
  have hresolve := stat_eq_ok.mp hstat
  rcases h.leads with ⟨old, hfound, -⟩ | ⟨hmissing, -⟩
  · obtain ⟨rfl, hentry⟩ := Place.found.inj (Except.ok.inj (hfound.symm.trans hresolve))
    exact ⟨rfl, (Entry.file.inj hentry).2⟩
  · cases hmissing.symm.trans hresolve

end FileSystem

/-- None of the files that are written is an input. -/
def Outputs.AreNoInputs (outputs : Outputs) (fs : FileSystem) (workingDirectory : Path)
    (set : InputSet) : Prop :=
  ∀ path, path = outputs.results ∨ outputs.composition = some path → ∀ location entry,
    fs.stat workingDirectory path = .ok (location, entry) →
    ¬ fs.StandsAt workingDirectory set location

namespace Analyzer

open FileSystem

variable {analyzer : Analyzer} {setting : Setting} {fs left : FileSystem} {request : Request}
  {outputs : Outputs} {outcome second : Outcome}

/-! ## The same analysis -/

theorem fileRecords_congr {workingDirectory root file : Path}
    (h : left.stat workingDirectory file = fs.stat workingDirectory file) :
    analyzer.fileRecords left workingDirectory root file =
      analyzer.fileRecords fs workingDirectory root file := by
  simp only [fileRecords, parseFile, readText, FileSystem.read, h]

theorem fileRecords_of_stat {workingDirectory root file : Path} {error : OsError}
    (h : fs.stat workingDirectory file = .error error) :
    analyzer.fileRecords fs workingDirectory root file =
      .error (.fileRead file (.os error)) := by
  simp only [fileRecords, parseFile, readText, FileSystem.read, h]
  rfl

/-- But for its records a package is what the request makes it. -/
theorem package_of_analyzeAt {workingDirectory place : Path}
    (h : (analyzer.analyzeAt fs workingDirectory request place).result = .ok outcome) :
    outcome.package =
      { name := request.packageName.getD (packageName workingDirectory request.input)
        version := request.packageVersion, language, allowList := analyzer.allowList
        records := outcome.package.records } := by
  unfold analyzeAt at h
  split at h
  · cases h
  · obtain rfl := Except.ok.inj h
    rfl

/-- The one input leads nowhere, and there are two reasons for it. -/
structure Blocked (fs left : FileSystem) (workingDirectory path : Path)
    (outcome second : Outcome) : Prop where
  before : fs.stat workingDirectory path = .error .notFound
  after : left.stat workingDirectory path = .error .notDirectory
  first : outcome.diagnostics = [.ofFault path (.fileRead path (.os .notFound))]
  second : second.diagnostics = [.ofFault path (.fileRead path (.os .notDirectory))]

theorem analyzeAt_repeats {workingDirectory place : Path} {set after : InputSet}
    (hset : fs.discover workingDirectory language place request.root = .ok set)
    (hafter : left.discover workingDirectory language place request.root = .ok after)
    (hrepeats : fs.Repeats left workingDirectory set after)
    (h : (analyzer.analyzeAt fs workingDirectory request place).result = .ok outcome) :
    ∃ second, (analyzer.analyzeAt left workingDirectory request place).result = .ok second ∧
      second.package = outcome.package ∧ second.filesAnalyzed = outcome.filesAnalyzed ∧
      (second.diagnostics = outcome.diagnostics ∨
        Blocked fs left workingDirectory set.input outcome second) := by
  obtain ⟨same, hsame, haccounts⟩ := analyzeAt_ok h
  obtain rfl := Except.ok.inj (hset.symm.trans hsame)
  obtain ⟨second, hsecond, hagain⟩ := analyzeAt_accounts analyzer hafter
  rw [hrepeats.inputs, hrepeats.root] at hagain
  have hpackage : second.package.records = outcome.package.records →
      second.package = outcome.package := by
    intro hrecords
    rw [package_of_analyzeAt hsecond, package_of_analyzeAt h, hrecords]
  have hlength := hagain.counted.trans haccounts.counted.symm
  refine ⟨second, hsecond, ?_⟩
  rcases hrepeats.stat with hstat | ⟨hsingle, hbefore, hnow⟩
  · have hrecords : ∀ file ∈ set.inputs,
        analyzer.fileRecords left workingDirectory set.root file =
          analyzer.fileRecords fs workingDirectory set.root file :=
      fun file hfile => fileRecords_congr (hstat file hfile)
    have hdiagnostics : second.diagnostics = outcome.diagnostics := by
      rw [hagain.diagnostics, haccounts.diagnostics]
      exact List.filterMap_congr fun file hfile => by rw [hrecords file hfile]
    refine ⟨hpackage ?_, ?_, .inl hdiagnostics⟩
    · rw [hagain.records, haccounts.records]
      exact List.flatMap_congr fun file hfile => by rw [hrecords file hfile]
    · rw [hdiagnostics] at hlength
      exact Nat.add_right_cancel hlength
  · rw [hsingle] at haccounts hagain
    have hfirst := haccounts.diagnostics
    have hlast := hagain.diagnostics
    simp only [List.filterMap_cons, List.filterMap_nil, fileRecords_of_stat hbefore] at hfirst
    simp only [List.filterMap_cons, List.filterMap_nil, fileRecords_of_stat hnow] at hlast
    refine ⟨hpackage ?_, ?_, .inr ⟨hbefore, hnow, hfirst, hlast⟩⟩
    · rw [hagain.records, haccounts.records]
      simp only [List.flatMap_cons, List.flatMap_nil, fileRecords_of_stat hbefore,
        fileRecords_of_stat hnow]
    · rw [hfirst, hlast] at hlength
      exact Nat.add_right_cancel hlength

/-! ## The same files -/

/-- A run that finds the results in their file, and its composition elsewhere, writes both again. -/
theorem run_writes_again {target : Location}
    (hresult : (analyzer.analyze setting left request).result = .ok outcome)
    (hsame : (analyzer.analyze setting left request).fileSystem = left)
    (hresults : left.Stores setting.workingDirectory outputs.results target
      outcome.results.encode.document)
    (hcomposition : ∀ composition, outputs.composition = some composition →
      ∃ last content, left.Stores setting.workingDirectory composition last content ∧
        last ≠ target) :
    (analyzer.run setting left request outputs).result = .ok outcome ∧
      (analyzer.run setting left request outputs).fileSystem.stat setting.workingDirectory
          outputs.results =
        left.stat setting.workingDirectory outputs.results := by
  have hrun : (analyzer.run setting left request outputs).result = .ok outcome := by
    refine run_total hresult hsame hresults.isWritable fun composition hasked => ?_
    obtain ⟨last, content, hstored, -⟩ := hcomposition composition hasked
    exact hstored.isWritable
  refine ⟨hrun, ?_⟩
  obtain ⟨permissions, hstat, -⟩ := hresults
  have hends := analyzer.run_ends setting left request outputs
  rw [hrun] at hends
  generalize (analyzer.run setting left request outputs).fileSystem = again at hends
  rw [hstat]
  cases hends with
  | written hanalysis hasked hwrites =>
    rw [hsame] at hwrites ⊢
    obtain ⟨rfl, rfl⟩ := hwrites.eq_of_stat hstat
    exact hwrites.stat _
  | bothWritten hanalysis hasked hwrites hlast =>
    rw [hsame] at hwrites hlast ⊢
    obtain ⟨rfl, rfl⟩ := hwrites.eq_of_stat hstat
    obtain ⟨last, content, ⟨lastPermissions, hstored, -⟩, hne⟩ := hcomposition _ hasked
    have hkept := hwrites.accepts.stat_insert outcome.results.encode.document hstored
    rw [if_neg hne] at hkept
    obtain ⟨rfl, -⟩ := hlast.eq_of_stat hkept
    rw [hlast.accepts.stat_insert _ (hwrites.stat _), if_neg hne.symm]

/-! ## The second run -/

section
variable {analysis : Activity Outcome} {set : InputSet}
  (hends : Ends setting.workingDirectory outputs analysis left (.ok outcome))
include hends

theorem Ends.analyzed : analysis.result = .ok outcome := by
  cases hends with
  | written hanalysis => exact hanalysis
  | bothWritten hanalysis => exact hanalysis

/-- After a run both its documents are in place, if they go to two files. -/
theorem Ends.stores (hapart : ∀ composition, outputs.composition = some composition →
      ¬ left.SameFile setting.workingDirectory outputs.results composition) :
    ∃ target, left.Stores setting.workingDirectory outputs.results target
        outcome.results.encode.document ∧
      ∀ composition, outputs.composition = some composition →
        ∃ last content, left.Stores setting.workingDirectory composition last content ∧
          last ≠ target := by
  cases hends with
  | written hanalysis hasked hresults =>
    refine ⟨_, hresults.stores _, fun composition hsome => ?_⟩
    cases hasked.symm.trans hsome
  | @bothWritten _ composition target last permissions lastPermissions hanalysis hasked hresults
      hcomposition =>
    have hlast := hcomposition.stores outcome.composition.encode.document
    have hfirst := hcomposition.accepts.stat_insert outcome.composition.encode.document
      (hresults.stat outcome.results.encode.document)
    by_cases hsame : target = last
    · subst hsame
      rw [if_pos rfl] at hfirst
      exact absurd ⟨_, _, hfirst, hcomposition.stat _⟩ (hapart _ hasked)
    · rw [if_neg hsame] at hfirst
      refine ⟨target, ⟨permissions, hfirst, hresults.write⟩, fun other hother => ?_⟩
      obtain rfl := Option.some.inj (hasked.symm.trans hother)
      exact ⟨last, _, hlast, Ne.symm hsame⟩

variable (hsame : analysis.fileSystem = fs)
include hsame

theorem Ends.isFile {path : Path} (hexists : fs.exists? setting.workingDirectory path = true) :
    left.isFile setting.workingDirectory path = fs.isFile setting.workingDirectory path := by
  subst hsame
  cases hends with
  | written hanalysis hasked hresults => exact (hresults.accepts.exists?_insert _ hexists).2
  | bothWritten hanalysis hasked hresults hcomposition =>
    obtain ⟨hstill, hfirst⟩ :=
      hresults.accepts.exists?_insert outcome.results.encode.document hexists
    exact (hcomposition.accepts.exists?_insert _ hstill).2.trans hfirst

/-- A search finds the same inputs after a run, and they lead where they led, as long as its files
are none of them. -/
theorem Ends.repeats (hwhole : fs.IsWhole) {input : Path} {root : Option Path}
    (hset : fs.discover setting.workingDirectory language input root = .ok set)
    (hother : ∀ after, left.discover setting.workingDirectory language input root = .ok after →
      outputs.AreNoInputs left setting.workingDirectory after) :
    ∃ after, left.discover setting.workingDirectory language input root = .ok after ∧
      fs.Repeats left setting.workingDirectory set after := by
  subst hsame
  cases hends with
  | written hanalysis hasked hresults =>
    obtain ⟨after, hafter, -⟩ := hresults.accepts.discover_insert _ hset
    exact ⟨after, hafter, hresults.accepts.repeats _ hwhole hset hafter
      (hother after hafter _ (.inl rfl) _ _ (hresults.stat _))⟩
  | bothWritten hanalysis hasked hresults hcomposition =>
    obtain ⟨middle, hmiddle, -⟩ :=
      hresults.accepts.discover_insert outcome.results.encode.document hset
    obtain ⟨after, hafter, -⟩ :=
      hcomposition.accepts.discover_insert outcome.composition.encode.document hmiddle
    have hnot := hother after hafter
    have hlast := hcomposition.accepts.repeats _ (hresults.isWhole hwhole _) hmiddle hafter
      (hnot _ (.inr hasked) _ _ (hcomposition.stat _))
    have hfirst := hcomposition.accepts.stat_insert outcome.composition.encode.document
      (hresults.stat outcome.results.encode.document)
    refine ⟨after, hafter, (hresults.accepts.repeats _ hwhole hset hmiddle ?_).trans hlast⟩
    exact fun hstands => hnot _ (.inl rfl) _ _ hfirst
      (hcomposition.accepts.standsAt_insert _ hlast.input hlast.inputs hstands)

end

/-- **Running again.** Let a run succeed on an input that is no archive, write its documents to two
files, and let these be none of the inputs that a search finds afterwards. Then a second run
succeeds, with the same results and as many files analyzed, and leaves in the file of the
results the same bytes. The diagnostics are the same as well, unless the one input led nowhere
and the first run has put a file on its way: then the reason is another one. -/
theorem second_run_repeats (analyzer : Analyzer) (setting : Setting) {fs left : FileSystem}
    (request : Request) (outputs : Outputs) {outcome : Outcome} {log : List LogEvent}
    (hwhole : fs.IsWhole) (hnone : archive? fs setting.workingDirectory request.input = none)
    (h : analyzer.run setting fs request outputs = ⟨left, log, .ok outcome⟩)
    (hapart : ∀ composition, outputs.composition = some composition →
      ¬ left.SameFile setting.workingDirectory outputs.results composition)
    (hother : ∀ set,
      left.discover setting.workingDirectory language request.input request.root = .ok set →
      outputs.AreNoInputs left setting.workingDirectory set) :
    ∃ second, (analyzer.run setting left request outputs).result = .ok second ∧
      second.results = outcome.results ∧ second.filesAnalyzed = outcome.filesAnalyzed ∧
      (analyzer.run setting left request outputs).fileSystem.stat setting.workingDirectory
          outputs.results =
        left.stat setting.workingDirectory outputs.results ∧
      (second.diagnostics = outcome.diagnostics ∨ ∃ path,
        (Path.absolute? setting.workingDirectory request.input).map Path.ofComponents =
          some path ∧
        Blocked fs left setting.workingDirectory path outcome second) := by
  have hat : analyzer.analyze setting fs request =
      analyzer.analyzeAt fs setting.workingDirectory request request.input := by
    simp only [analyze, hnone]
  have hsame := analyzeAt_fileSystem analyzer fs request setting.workingDirectory request.input
  have hends := analyzer.run_ends setting fs request outputs
  rw [h, hat] at hends
  have hfirst := hends.analyzed
  obtain ⟨set, hset, -⟩ := analyzeAt_ok hfirst
  obtain ⟨after, hafter, hrepeats⟩ := hends.repeats hsame hwhole hset hother
  obtain ⟨second, hsecond, hpackage, hcounted, hdiagnostics⟩ :=
    analyzeAt_repeats hset hafter hrepeats hfirst
  have hresults : second.results = outcome.results := by
    rw [Outcome.results, hpackage, Outcome.results]
  have hagain : analyzer.analyze setting left request =
      analyzer.analyzeAt left setting.workingDirectory request request.input := by
    have hexists : fs.exists? setting.workingDirectory request.input = true := by
      obtain ⟨location, entry, hstat⟩ := stat_of_discover hset
      rw [exists?, hstat]
      rfl
    have hstill : archive? left setting.workingDirectory request.input = none := by
      rw [archive?, hends.isFile hsame hexists]
      exact hnone
    simp only [analyze, hstill]
  obtain ⟨target, hstored, hlast⟩ := hends.stores hapart
  rw [← hresults] at hstored
  obtain ⟨hrun, hkept⟩ := run_writes_again (hagain ▸ hsecond)
    (hagain ▸ analyzeAt_fileSystem analyzer left request _ _) hstored hlast
  refine ⟨second, hrun, hresults, hcounted, hkept, hdiagnostics.imp_right fun hblocked => ?_⟩
  obtain ⟨components, above, hcomponents, rfl⟩ := discover_eq_ok hset
  refine ⟨_, ?_, hblocked⟩
  rw [hcomponents, Option.map_some, input_enumerate]

theorem mixedFiles_isWhole : mixedFiles.IsWhole := by
  refine isWhole_iff.mpr fun e he => ?_
  simp only [mixedFiles, List.mem_cons, List.not_mem_nil, or_false] at he
  rcases he with rfl | rfl | rfl | rfl
  · exact ⟨[], "app", rfl, isDirectory_root, by decide⟩
  · exact ⟨["app"], "a.rb", rfl, ⟨_, rfl⟩, by decide⟩
  · exact ⟨["app"], "b.rb", rfl, ⟨_, rfl⟩, by decide⟩
  · exact ⟨["app"], "notes", rfl, ⟨_, rfl⟩, by decide⟩

/-- A run that writes into the directory that it analyzes. -/
def insideRun (fs : FileSystem) : Activity Outcome :=
  pickyAnalyzer.run plainSetting fs mixedRequest ⟨⟨"/app/out"⟩, some ⟨"/app/c"⟩⟩

/-- The second run finds two files more, which are no sources. -/
theorem inside_run_repeats :
    (insideRun mixedFiles).result = .ok mixedOutcome ∧
    ∃ second, (insideRun (insideRun mixedFiles).fileSystem).result = .ok second ∧
      second.results = mixedOutcome.results ∧ second.filesAnalyzed = 1 ∧
      second.diagnostics = mixedOutcome.diagnostics ∧
      (insideRun (insideRun mixedFiles).fileSystem).fileSystem.stat ⟨"/"⟩ ⟨"/app/out"⟩ =
        (insideRun mixedFiles).fileSystem.stat ⟨"/"⟩ ⟨"/app/out"⟩ := by
  have hresult : (insideRun mixedFiles).result = .ok mixedOutcome := by rfl
  have hrun : insideRun mixedFiles =
      ⟨(insideRun mixedFiles).fileSystem, (insideRun mixedFiles).log, .ok mixedOutcome⟩ :=
    hresult ▸ rfl
  have hout : ((insideRun mixedFiles).fileSystem.stat ⟨"/"⟩ ⟨"/app/out"⟩).map Prod.fst =
      .ok ["app", "out"] := by
    rfl
  have hc : ((insideRun mixedFiles).fileSystem.stat ⟨"/"⟩ ⟨"/app/c"⟩).map Prod.fst =
      .ok ["app", "c"] := by
    rfl
  have hfound : (insideRun mixedFiles).fileSystem.discover ⟨"/"⟩ language ⟨"/app"⟩ none =
      .ok ⟨⟨"/app"⟩, ⟨"/app"⟩, [⟨"/app/a.rb"⟩, ⟨"/app/b.rb"⟩],
        [⟨"/app/a.rb"⟩, ⟨"/app/b.rb"⟩, ⟨"/app/c"⟩, ⟨"/app/notes"⟩, ⟨"/app/out"⟩], []⟩ := by
    rfl
  have hplace : (insideRun mixedFiles).fileSystem.directory? ⟨"/"⟩ ⟨"/app"⟩ =
      some (["app"] : Location) := by
    rfl
  have hapart : ∀ composition, some (⟨"/app/c"⟩ : Path) = some composition →
      ¬ (insideRun mixedFiles).fileSystem.SameFile ⟨"/"⟩ ⟨"/app/out"⟩ composition := by
    rintro _ ⟨⟩
    exact not_sameFile hout hc (by decide)
  have hother : ∀ set, (insideRun mixedFiles).fileSystem.discover ⟨"/"⟩ language ⟨"/app"⟩ none =
      .ok set → Outputs.AreNoInputs ⟨⟨"/app/out"⟩, some ⟨"/app/c"⟩⟩
        (insideRun mixedFiles).fileSystem ⟨"/"⟩ set := by
    intro set hset path hpath location entry hstat hstands
    obtain rfl := Except.ok.inj (hfound.symm.trans hset)
    cases hstands with
    | itself hnone => cases hplace.symm.trans hnone
    | @below top names hdirectory hinput =>
      obtain rfl := Option.some.inj (hplace.symm.trans hdirectory)
      rcases hpath with rfl | ⟨⟨⟩⟩
      · rw [hstat] at hout
        obtain rfl : names = ["out"] := List.append_cancel_left (Except.ok.inj hout)
        exact absurd hinput (by decide)
      · rw [hstat] at hc
        obtain rfl : names = ["c"] := List.append_cancel_left (Except.ok.inj hc)
        exact absurd hinput (by decide)
  obtain ⟨second, hsecond, hresults, hcounted, hkept, hsame | ⟨path, hpath, hblocked⟩⟩ :=
    second_run_repeats pickyAnalyzer plainSetting mixedRequest
      ⟨⟨"/app/out"⟩, some ⟨"/app/c"⟩⟩ mixedFiles_isWhole (by rfl) hrun hapart hother
  · exact ⟨hresult, second, hsecond, hresults, hcounted, hsame, hkept⟩
  · obtain rfl : (⟨"/app"⟩ : Path) = path := Option.some.inj hpath
    cases hblocked.before

/-- A file next to what a link leads to. -/
def climbedFiles : FileSystem where
  entries :=
    [(["d"], .directory .all),
     (["d", "e"], .directory .all),
     (["d", "out"], .directory .all),
     (["d", "out", "x"], .file .empty .all),
     (["l"], .link "/d/e")]
  sorted := by decide

theorem climbedFiles_isWhole : climbedFiles.IsWhole := by
  refine isWhole_iff.mpr fun e he => ?_
  simp only [climbedFiles, List.mem_cons, List.not_mem_nil, or_false] at he
  rcases he with rfl | rfl | rfl | rfl | rfl
  · exact ⟨[], "d", rfl, isDirectory_root, by decide⟩
  · exact ⟨["d"], "e", rfl, ⟨_, rfl⟩, by decide⟩
  · exact ⟨["d"], "out", rfl, ⟨_, rfl⟩, by decide⟩
  · exact ⟨["d", "out"], "x", rfl, ⟨_, rfl⟩, by decide⟩
  · exact ⟨[], "l", rfl, isDirectory_root, by decide⟩

/-- A run on the file by way of the link. -/
def climbedRun (fs : FileSystem) : Activity Outcome :=
  pickyAnalyzer.run plainSetting fs ⟨⟨"/l/../out/x"⟩, none, none, none⟩ ⟨⟨"/out"⟩, some ⟨"/c"⟩⟩

def climbedOutcome (error : OsError) : Outcome where
  package := { name := "x", version := none, language := .ruby, allowList := none, records := [] }
  diagnostics := [.ofFault ⟨"/out/x"⟩ (.fileRead ⟨"/out/x"⟩ (.os error))]
  composition := ⟨[]⟩
  filesAnalyzed := 0

/-- The normal form of the input leads nowhere, and the results are written where it would have led
through. -/
theorem results_on_the_way :
    climbedFiles.IsWhole ∧ climbedFiles.isFile ⟨"/"⟩ ⟨"/l/../out/x"⟩ = true ∧
    archive? climbedFiles ⟨"/"⟩ ⟨"/l/../out/x"⟩ = none ∧
    (climbedRun climbedFiles).result = .ok (climbedOutcome .notFound) ∧
    ¬ (climbedRun climbedFiles).fileSystem.SameFile ⟨"/"⟩ ⟨"/out"⟩ ⟨"/c"⟩ ∧
    (∃ set, (climbedRun climbedFiles).fileSystem.discover ⟨"/"⟩ language ⟨"/l/../out/x"⟩ none =
        .ok set ∧ Outputs.AreNoInputs ⟨⟨"/out"⟩, some ⟨"/c"⟩⟩
          (climbedRun climbedFiles).fileSystem ⟨"/"⟩ set) ∧
    (climbedRun (climbedRun climbedFiles).fileSystem).result =
      .ok (climbedOutcome .notDirectory) ∧
    (climbedOutcome .notDirectory).diagnostics ≠ (climbedOutcome .notFound).diagnostics := by
  have hout : ((climbedRun climbedFiles).fileSystem.stat ⟨"/"⟩ ⟨"/out"⟩).map Prod.fst =
      .ok ["out"] := by
    rfl
  have hc : ((climbedRun climbedFiles).fileSystem.stat ⟨"/"⟩ ⟨"/c"⟩).map Prod.fst =
      .ok ["c"] := by
    rfl
  have hnowhere : (climbedRun climbedFiles).fileSystem.stat ⟨"/"⟩ ⟨"/out/x"⟩ =
      .error .notDirectory := by
    rfl
  refine ⟨climbedFiles_isWhole, by rfl, by rfl, by rfl, not_sameFile hout hc (by decide),
    ⟨⟨⟨"/out/x"⟩, ⟨"/out"⟩, [⟨"/out/x"⟩], [⟨"/out/x"⟩], []⟩, by rfl, ?_⟩, by rfl, by decide⟩
  -- nothing stands where the one input would
  intro path _ location entry _ hstands
  cases hstands with
  | below hplace =>
    obtain ⟨permissions, hstat⟩ := stat_of_directory? hplace
    cases hnowhere.symm.trans hstat
  | itself _ hstat => cases hnowhere.symm.trans hstat

end Analyzer
end CallSift

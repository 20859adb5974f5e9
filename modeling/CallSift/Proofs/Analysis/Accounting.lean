import CallSift.Analysis
import CallSift.Proofs.Except
import CallSift.Proofs.FileSystem.Rewrite
import CallSift.Proofs.Text.Bytes

/-!
# Accounting for the inputs

What an analysis answers is put together from what its inputs give one by one. An input
gives its records, or else the fault that kept it from giving any; the files that are no
inputs give neither. An input is looked at alone, so a change in one file is felt
nowhere else.

* `report_input` and `report_other`: what the report of a file says.
* `accounts_reports`: so the reports of all files account for every input once.
* `fileRecords_rewrite`: what an input gives depends on no file but its own.
* `every_input_accounted`: an outcome is the sum of its inputs, each for itself.
-/
namespace CallSift

/-! ## What an input gives -/

namespace Analyzer

/-- The references of a file, unless it cannot be read, parsed or walked. -/
def parseFile (analyzer : Analyzer) (fs : FileSystem) (workingDirectory file : Path) :
    Except Fault (List Reference) :=
  match fs.readText workingDirectory file with
  | .error cause => .error (.fileRead file cause)
  | .ok text =>
    (Extraction.ofText analyzer.filter analyzer.limit analyzer.parse text).result.mapError
      (·.toFault file)

theorem parseFile_eq_ok {analyzer : Analyzer} {fs : FileSystem} {workingDirectory file : Path}
    {references : List Reference} :
    analyzer.parseFile fs workingDirectory file = .ok references ↔
      ∃ text, fs.readText workingDirectory file = .ok text ∧
        (Extraction.ofText analyzer.filter analyzer.limit analyzer.parse text).result =
          .ok references := by
  unfold parseFile
  cases fs.readText workingDirectory file with
  | error cause => simp
  | ok text => simp [mapError_eq_ok]

/-- A file that has no references is passed over, and not for the range of one. -/
theorem parseFile_error {analyzer : Analyzer} {fs : FileSystem} {workingDirectory file : Path}
    {fault : Fault} (h : analyzer.parseFile fs workingDirectory file = .error fault) :
    fault.isFatal = false ∧ fault.stage ≠ .normalize := by
  unfold parseFile at h
  split at h
  · cases h
    exact ⟨rfl, nofun⟩
  · obtain ⟨cause, -, rfl⟩ := mapError_eq_error.mp h
    cases cause with
    | noTree | malformed | walk => exact ⟨rfl, nofun⟩

/-- The records of a file, or the first fault. -/
def fileRecords (analyzer : Analyzer) (fs : FileSystem) (workingDirectory root file : Path) :
    Except Fault (List Record) :=
  (analyzer.parseFile fs workingDirectory file).bind (records file root)

end Analyzer

/-- An outcome accounts for its inputs by what each of them gives: the records of those that
give any, a diagnostic for each of the others, both in the order of the inputs. -/
structure Outcome.Accounts (outcome : Outcome) (inputs : List Path)
    (result : Path → Except Fault (List Record)) : Prop where
  records : outcome.package.records = inputs.flatMap fun file =>
    match result file with
    | .ok records => records
    | .error _ => []
  diagnostics : outcome.diagnostics = inputs.filterMap fun file =>
    match result file with
    | .ok _ => none
    | .error fault => some ⟨file, fault.stage, fault.message⟩
  counted : outcome.filesAnalyzed + outcome.diagnostics.length = inputs.length

namespace Outcome.Accounts

variable {outcome : Outcome} {inputs : List Path} {result : Path → Except Fault (List Record)}

/-- A record is among those of an input. -/
theorem mem_records (h : outcome.Accounts inputs result) {record : Record} :
    record ∈ outcome.package.records ↔
      ∃ file ∈ inputs, ∃ found, result file = .ok found ∧ record ∈ found := by
  rw [h.records, List.mem_flatMap]
  refine exists_congr fun file => and_congr_right fun _ => ?_
  cases result file with
  | ok found => simp
  | error fault => simp

/-- A diagnostic is about an input, and tells the stage and the message of its fault. -/
theorem mem_diagnostics (h : outcome.Accounts inputs result) {diagnostic : Diagnostic} :
    diagnostic ∈ outcome.diagnostics ↔ ∃ file ∈ inputs, ∃ fault,
      result file = .error fault ∧ diagnostic = ⟨file, fault.stage, fault.message⟩ := by
  rw [h.diagnostics, List.mem_filterMap]
  refine exists_congr fun file => and_congr_right fun _ => ?_
  cases result file with
  | ok found => simp
  | error fault => simp [eq_comm]

end Outcome.Accounts

/-! ## The reports of files -/

namespace Analyzer

section
variable (analyzer : Analyzer) (fs : FileSystem) (workingDirectory : Path)

theorem reportSource_result (root file : Path) : ∃ lines findings,
    analyzer.reportSource fs workingDirectory root file =
      .source file lines findings (analyzer.fileRecords fs workingDirectory root file) := by
  unfold reportSource extractFile fileRecords parseFile
  cases fs.readText workingDirectory file with
  | error cause => exact ⟨_, _, rfl⟩
  | ok text =>
    cases hresult :
        (Extraction.ofText analyzer.filter analyzer.limit analyzer.parse text).result with
    | error fault => simp only [hresult]; exact ⟨_, _, rfl⟩
    | ok references => simp only [hresult]; exact ⟨_, _, rfl⟩

theorem report_input {set : InputSet} {file : Path} (h : set.isInput file = true) :
    ∃ lines findings, analyzer.report fs workingDirectory set file =
      .source file lines findings (analyzer.fileRecords fs workingDirectory set.root file) := by
  rw [report, if_pos h]
  exact reportSource_result analyzer fs workingDirectory set.root file

theorem report_other {set : InputSet} {file : Path} (h : ¬ set.isInput file = true) :
    ∃ lines, analyzer.report fs workingDirectory set file = .other file lines := by
  rw [report, if_neg h]
  exact ⟨_, rfl⟩

/-- The reports of files account for those of them that are inputs. A report adds what its
file gives and leaves what the others gave. -/
theorem accounts_reports (request : Request) (name : String) (set : InputSet) :
    ∀ files : List Path,
      (Outcome.ofReports analyzer language request name
        (files.map (analyzer.report fs workingDirectory set))).Accounts
        (files.filter set.isInput) (analyzer.fileRecords fs workingDirectory set.root)
  | [] => ⟨rfl, rfl, rfl⟩
  | file :: rest => by
    obtain ⟨hrecords, hdiagnostics, hcounted⟩ := accounts_reports request name set rest
    simp only [Outcome.ofReports] at hrecords hdiagnostics hcounted
    by_cases hinput : set.isInput file = true
    · obtain ⟨lines, findings, hreport⟩ := report_input analyzer fs workingDirectory hinput
      rw [List.filter_cons_of_pos hinput, List.map_cons, hreport]
      cases hresult : analyzer.fileRecords fs workingDirectory set.root file with
      | ok found =>
        refine ⟨?_, ?_, ?_⟩
        · simp only [Outcome.ofReports, List.flatMap_cons, hresult, FileReport.records, hrecords]
        · simp only [Outcome.ofReports, List.filterMap_cons, hresult, FileReport.diagnostic?,
            hdiagnostics]
        · simp only [Outcome.ofReports, List.filterMap_cons, List.countP_cons, List.length_cons,
            FileReport.diagnostic?, FileReport.isAnalyzed, if_true]
          omega
      | error fault =>
        refine ⟨?_, ?_, ?_⟩
        · simp only [Outcome.ofReports, List.flatMap_cons, hresult, FileReport.records, hrecords]
        · simp only [Outcome.ofReports, List.filterMap_cons, hresult, FileReport.diagnostic?,
            Diagnostic.ofFault, hdiagnostics]
        · simp only [Outcome.ofReports, List.filterMap_cons, List.countP_cons, List.length_cons,
            FileReport.diagnostic?, FileReport.isAnalyzed, Bool.false_eq_true, if_false]
          omega
    · obtain ⟨lines, hreport⟩ := report_other analyzer fs workingDirectory hinput
      rw [List.filter_cons_of_neg hinput, List.map_cons, hreport]
      exact ⟨hrecords, hdiagnostics, hcounted⟩

end

end Analyzer

/-! ## The inputs among the files -/

theorem Language.isSource_congr (language : Language) {file other : Path}
    (h : file.components = other.components) :
    language.isSource file = language.isSource other := by
  simp only [isSource, Path.extension?, Path.fileName?, h]

/-- Of the files below a directory a run takes the sources for inputs. -/
theorem FileSystem.isInput_enumerate {fs : FileSystem} {workingDirectory : Path}
    {language : Language} {components : List Component} {location : Location}
    (h : fs.directory? workingDirectory (.ofComponents components) = some location) {file : Path}
    (hfile : file ∈ (fs.enumerate workingDirectory language components).files) :
    (fs.enumerate workingDirectory language components).isInput file =
      language.isSource file := by
  simp only [enumerate, h] at hfile ⊢
  rw [InputSet.isInput, Bool.eq_iff_iff, List.any_eq_true]
  constructor
  · rintro ⟨other, hother, hsame⟩
    rw [language.isSource_congr (of_decide_eq_true hsame).symm]
    exact (List.mem_filter.mp hother).2
  · intro hsource
    exact ⟨file, List.mem_filter.mpr ⟨hfile, hsource⟩, decide_eq_true rfl⟩

/-- The files that a run takes for inputs are the inputs, in the same order. -/
theorem FileSystem.filter_isInput_enumerate (fs : FileSystem) (workingDirectory : Path)
    (language : Language) (components : List Component) :
    let set := fs.enumerate workingDirectory language components
    set.files.filter set.isInput = set.inputs := by
  cases hplace : fs.directory? workingDirectory (.ofComponents components) with
  | none => simp [enumerate, hplace, InputSet.isInput]
  | some location =>
    simp only
    rw [List.filter_congr fun file hfile => isInput_enumerate hplace hfile]
    simp only [enumerate, hplace]

/-- A root that is given is all that a run takes from elsewhere. -/
theorem FileSystem.discover_eq_ok {fs : FileSystem} {workingDirectory input : Path}
    {language : Language} {root : Option Path} {set : InputSet}
    (h : fs.discover workingDirectory language input root = .ok set) :
    ∃ components above, Path.absolute? workingDirectory input = some components ∧
      set = { fs.enumerate workingDirectory language components with root := above } := by
  unfold discover at h
  split at h
  · cases hinput : Path.absolute? workingDirectory input with
    | none => simp [hinput] at h
    | some components =>
      simp only [hinput] at h
      cases root with
      | none => cases h; exact ⟨components, _, rfl, rfl⟩
      | some root =>
        cases hroot : Path.absolute? workingDirectory root with
        | none => simp [hroot] at h
        | some above => simp only [hroot] at h; cases h; exact ⟨components, _, rfl, rfl⟩
  · cases h

theorem FileSystem.filter_isInput {fs : FileSystem} {workingDirectory input : Path}
    {language : Language} {root : Option Path} {set : InputSet}
    (h : fs.discover workingDirectory language input root = .ok set) :
    set.files.filter set.isInput = set.inputs := by
  obtain ⟨components, above, -, rfl⟩ := discover_eq_ok h
  exact fs.filter_isInput_enumerate workingDirectory language components

/-! ## Whole analyses -/

namespace Analyzer

variable {analyzer : Analyzer} {setting : Setting} {fs : FileSystem} {request : Request}
  {outcome : Outcome}

/-- What an analysis looks at: the input where it lies, or the directory that an archive was
unpacked into. -/
inductive LooksAt (setting : Setting) (fs : FileSystem) (request : Request) :
    FileSystem → Path → Prop
  | input (h : archive? fs setting.workingDirectory request.input = none) :
    LooksAt setting fs request fs request.input
  | unpacked {kind : ArchiveKind} {seen : FileSystem} {directory : OwnDirectory}
    (h : archive? fs setting.workingDirectory request.input = some kind)
    (hunpack : fs.unpack setting request.input kind = (seen, .ok directory)) :
    LooksAt setting fs request seen directory.path

theorem analyze_ok (h : (analyzer.analyze setting fs request).result = .ok outcome) :
    ∃ seen place, LooksAt setting fs request seen place ∧
      (analyzer.analyzeAt seen setting.workingDirectory request place).result = .ok outcome := by
  unfold analyze at h
  cases hkind : archive? fs setting.workingDirectory request.input with
  | none =>
    simp only [hkind] at h
    exact ⟨fs, request.input, .input hkind, h⟩
  | some kind =>
    simp only [hkind, analyzeArchive] at h
    rcases hunpack : fs.unpack setting request.input kind with ⟨seen, cause | directory⟩
    · simp only [hunpack] at h
      cases h
    · simp only [hunpack] at h
      exact ⟨seen, directory.path, .unpacked hkind hunpack, h⟩

/-- An analysis that finds its files succeeds, and its outcome accounts for the inputs. -/
theorem analyzeAt_accounts (analyzer : Analyzer) {workingDirectory place : Path} {set : InputSet}
    (h : fs.discover workingDirectory language place request.root = .ok set) :
    ∃ outcome, (analyzer.analyzeAt fs workingDirectory request place).result = .ok outcome ∧
      outcome.Accounts set.inputs (analyzer.fileRecords fs workingDirectory set.root) := by
  have haccounts := accounts_reports analyzer fs workingDirectory request
    (request.packageName.getD (packageName workingDirectory request.input)) set set.files
  rw [FileSystem.filter_isInput h] at haccounts
  refine ⟨_, ?_, haccounts⟩
  simp only [analyzeAt, h]

theorem analyzeAt_ok {workingDirectory place : Path}
    (h : (analyzer.analyzeAt fs workingDirectory request place).result = .ok outcome) :
    ∃ set, fs.discover workingDirectory language place request.root = .ok set ∧
      outcome.Accounts set.inputs (analyzer.fileRecords fs workingDirectory set.root) := by
  cases hset : fs.discover workingDirectory language place request.root with
  | error fault => simp [analyzeAt, hset] at h
  | ok set =>
    obtain ⟨same, hsame, haccounts⟩ := analyzeAt_accounts analyzer hset
    rw [h] at hsame
    cases hsame
    exact ⟨set, rfl, haccounts⟩

theorem fileRecords_rewrite {workingDirectory root file : Path} {target : Location}
    {content : ByteArray} (h : ∀ entry, fs.stat workingDirectory file ≠ .ok (target, entry)) :
    analyzer.fileRecords (fs.rewrite target content) workingDirectory root file =
      analyzer.fileRecords fs workingDirectory root file := by
  unfold fileRecords parseFile
  rw [FileSystem.readText_rewrite h]

theorem archive?_rewrite {workingDirectory input : Path} {target : Location}
    {content : ByteArray} : archive? (fs.rewrite target content) workingDirectory input =
      archive? fs workingDirectory input := by
  simp only [archive?, FileSystem.isFile_rewrite]

/-- **Accounting.** When an analysis succeeds, its records are those that the inputs give on
their own, one input after the other; its diagnostics are the stages and messages of the
faults of those inputs that give none; and each input counts once, as analyzed or with
a diagnostic. With another content in one file the analysis succeeds as well, accounts for
the same inputs, and every input that is not this file gives what it gave before. -/
theorem every_input_accounted
    (h : (analyzer.analyze setting fs request).result = .ok outcome) :
    ∃ seen place set, LooksAt setting fs request seen place ∧
      seen.discover setting.workingDirectory language place request.root = .ok set ∧
      outcome.Accounts set.inputs
        (analyzer.fileRecords seen setting.workingDirectory set.root) ∧
      ∀ target old permissions content, seen.get? target = some (.file old permissions) →
        let changed := seen.insert target (.file content permissions)
        ∃ other,
          (analyzer.analyzeAt changed setting.workingDirectory request place).result =
            .ok other ∧
          (archive? fs setting.workingDirectory request.input = none →
            (analyzer.analyze setting changed request).result = .ok other) ∧
          other.Accounts set.inputs
            (analyzer.fileRecords changed setting.workingDirectory set.root) ∧
          ∀ file ∈ set.inputs,
            (∀ entry, seen.stat setting.workingDirectory file ≠ .ok (target, entry)) →
            analyzer.fileRecords changed setting.workingDirectory set.root file =
              analyzer.fileRecords seen setting.workingDirectory set.root file := by
  obtain ⟨seen, place, hlooks, hat⟩ := analyze_ok h
  obtain ⟨set, hset, haccounts⟩ := analyzeAt_ok hat
  refine ⟨seen, place, set, hlooks, hset, haccounts, ?_⟩
  intro target old permissions content hfile
  rw [FileSystem.insert_eq_rewrite hfile]
  have hchanged : (seen.rewrite target content).discover setting.workingDirectory language place
      request.root = .ok set := by
    rw [FileSystem.discover_rewrite, hset]
  obtain ⟨other, hother, hotherAccounts⟩ := analyzeAt_accounts analyzer hchanged
  refine ⟨other, hother, ?_, hotherAccounts, fun file _ hstat => fileRecords_rewrite hstat⟩
  intro hnone
  cases hlooks with
  | input => simpa only [analyze, archive?_rewrite, hnone] using hother
  | unpacked hkind => rw [hnone] at hkind; cases hkind

/-- Only one text has a tree, of one name. -/
def pickyAnalyzer : Analyzer where
  allowList := none
  limit := 0
  parse := fun text =>
    if text = "é" then
      some (.mk ⟨"identifier", "identifier", 0, 2, true, false, false, false, []⟩ [])
    else none

def mixedFiles : FileSystem where
  entries :=
    [(["app"], .directory .all),
     (["app", "a.rb"], .file "é".toUTF8 .all),
     (["app", "b.rb"], .file "b(".toUTF8 .all),
     (["app", "notes"], .file "é".toUTF8 .all)]
  sorted := by decide

def mixedOutcome : Outcome where
  package :=
    { name := "app", version := none, language := .ruby, allowList := none
      records :=
        let file : FileInfo := ⟨"a.rb", ".", "a.rb", "/app"⟩
        [⟨.functionDeclRefExpr, "é", none, "é", none, "é", ⟨⟨1, 0, file⟩, ⟨1, 1, file⟩⟩⟩] }
  diagnostics := [⟨⟨"/app/b.rb"⟩, .parse, "failed to parse /app/b.rb: parser produced no tree"⟩]
  composition := ⟨[⟨"/app/a.rb", 1, true⟩, ⟨"/app/b.rb", 1, true⟩, ⟨"/app/notes", 1, false⟩]⟩
  filesAnalyzed := 1

def mixedRequest : Request := ⟨⟨"/app"⟩, none, none, none⟩

def plainSetting : Setting := ⟨⟨"/"⟩, ⟨"/tmp"⟩, []⟩

set_option maxRecDepth 4000 in
theorem mixedFiles_analyze :
    (pickyAnalyzer.analyze plainSetting mixedFiles mixedRequest).result = .ok mixedOutcome := by
  rfl

set_option maxRecDepth 4000 in
/-- One input gives a record and the other a diagnostic. Whatever the other holds instead, the
record of the first comes first. -/
theorem mixed_inputs_accounted :
    (pickyAnalyzer.analyze plainSetting mixedFiles mixedRequest).result = .ok mixedOutcome ∧
    mixedOutcome.Accounts [⟨"/app/a.rb"⟩, ⟨"/app/b.rb"⟩]
      (pickyAnalyzer.fileRecords mixedFiles ⟨"/"⟩ ⟨"/app"⟩) ∧
    ∀ content, ∃ other,
      (pickyAnalyzer.analyze plainSetting
        (mixedFiles.insert ["app", "b.rb"] (.file content .all)) mixedRequest).result = .ok other ∧
      mixedOutcome.package.records <+: other.package.records := by
  have hnone : archive? mixedFiles ⟨"/"⟩ ⟨"/app"⟩ = none := by rfl
  have hfound : mixedFiles.discover ⟨"/"⟩ language ⟨"/app"⟩ none =
      .ok ⟨⟨"/app"⟩, ⟨"/app"⟩, [⟨"/app/a.rb"⟩, ⟨"/app/b.rb"⟩],
        [⟨"/app/a.rb"⟩, ⟨"/app/b.rb"⟩, ⟨"/app/notes"⟩], []⟩ := by
    rfl
  have hfirst : pickyAnalyzer.fileRecords mixedFiles ⟨"/"⟩ ⟨"/app"⟩ ⟨"/app/a.rb"⟩ =
      .ok mixedOutcome.package.records := by
    rfl
  have hplace : mixedFiles.stat ⟨"/"⟩ ⟨"/app/a.rb"⟩ =
      .ok (["app", "a.rb"], .file "é".toUTF8 .all) := by
    rfl
  obtain ⟨seen, place, set, hlooks, hset, haccounts, hchange⟩ :=
    every_input_accounted mixedFiles_analyze
  cases hlooks with
  | unpacked hkind => exact absurd (hnone.symm.trans hkind) nofun
  | input =>
    obtain rfl := Except.ok.inj (hfound.symm.trans hset)
    refine ⟨mixedFiles_analyze, haccounts, ?_⟩
    intro content
    obtain ⟨other, -, hother, hotherAccounts, hkept⟩ :=
      hchange ["app", "b.rb"] "b(".toUTF8 .all content (by rfl)
    refine ⟨other, hother hnone, ?_⟩
    have helsewhere : ∀ entry, mixedFiles.stat ⟨"/"⟩ ⟨"/app/a.rb"⟩ ≠
        .ok (["app", "b.rb"], entry) := by
      intro entry h
      rw [hplace] at h
      simp at h
    have hsame := (hkept _ List.mem_cons_self helsewhere).trans hfirst
    rw [hotherAccounts.records, List.flatMap_cons, hsame]
    exact List.prefix_append _ _

end Analyzer
end CallSift

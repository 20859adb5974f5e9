import CallSift.Proofs.Analysis.Accounting
import CallSift.Proofs.Except
import CallSift.Proofs.FileSystem.Under
import CallSift.Proofs.Record.FileInfo
import Mathlib.Data.List.Forall2

/-!
# One tree in two places

An analysis of a directory depends on the tree that the directory holds. The directory
itself shows where the outcome names it: as the root of the records, in front of the
paths of diagnostics and in their messages, and in front of the names of the
composition. Nothing else changes when the same tree is analyzed in another place.

* `reportBelow_moved`: the report of one file.
* `ofReports_moved`: the outcome of all files.
* `analyzeAt_reaches`: an analysis of a directory succeeds, and what its outcome is.
* `analyzeAt_moved`: two directories with one tree are analyzed alike.
* `analyze_under_long`: no file is analyzed in a place where paths are too long.
-/
namespace CallSift

/-! ## Another place -/

/-- The record of the same reference in a file that stands below another root. -/
def Record.inRoot (root : Path) (record : Record) : Record :=
  let move : SourceLocation → SourceLocation := fun location =>
    { location with fileInfo := { location.fileInfo with directory := root.text } }
  { record with range := ⟨move record.range.start, move record.range.stop⟩ }

namespace Fault

/-- The same fault of another file. -/
def about (path : Path) : Fault → Fault
  | inputNotFound _ => .inputNotFound path
  | unpack _ cause => .unpack path cause
  | fileRead _ cause => .fileRead path cause
  | parse _ reason => .parse path reason
  | traversal _ reason => .traversal path reason
  | malformedRange _ reason => .malformedRange path reason
  | outputWrite _ cause => .outputWrite path cause

theorem stage_about (path : Path) (fault : Fault) : (fault.about path).stage = fault.stage := by
  cases fault <;> rfl

/-- A message names the file once. -/
theorem message_about (fault : Fault) :
    ∃ before after, ∀ path, (fault.about path).message = before ++ path.text ++ after := by
  cases fault <;> simp only [about, Fault.message.eq_def]
  case inputNotFound => exact ⟨_, _, fun _ => rfl⟩
  all_goals exact ⟨_, _, fun _ => String.append_assoc⟩

end Fault

namespace FileReport

/-- The report of the same file in another place. -/
def moved (file root : Path) : FileReport → FileReport
  | source _ lines findings result =>
    .source file lines findings ((result.map (·.map (Record.inRoot root))).mapError (·.about file))
  | other _ lines => .other file lines

variable (file root : Path)

theorem records_moved (report : FileReport) :
    (report.moved file root).records = report.records.map (Record.inRoot root) := by
  cases report with
  | source _ _ _ result => cases result <;> rfl
  | other => rfl

theorem isAnalyzed_moved (report : FileReport) :
    (report.moved file root).isAnalyzed = report.isAnalyzed := by
  cases report with
  | source _ _ _ result => cases result <;> rfl
  | other => rfl

end FileReport

/-! ## The report of a file -/

namespace Analyzer

open FileSystem

/-- The report of a file below the root of a run. -/
def reportBelow (analyzer : Analyzer) (fs : FileSystem) (workingDirectory place : Path)
    (names : Location) : FileReport :=
  let file := below place names
  if language.isSource file then analyzer.reportSource fs workingDirectory place file
  else .other file ((fs.readText workingDirectory file).map lineCount)

/-- Where a file stands below its root does not depend on the root. -/
theorem ofReference_moved {names : Location} (hsome : names ≠ [])
    (hnames : ∀ name ∈ names, IsName name) (place other : Path) (reference : Reference) :
    Record.ofReference reference (.of (below other names) other) =
      (Record.ofReference reference (.of (below place names) place)).map
        (Record.inRoot other) := by
  rw [FileInfo.of_below hsome hnames, FileInfo.of_below hsome hnames]
  unfold Record.ofReference
  simp only
  split <;> rfl

theorem records_moved {names : Location} (hsome : names ≠ [])
    (hnames : ∀ name ∈ names, IsName name) (place other : Path) (references : List Reference) :
    records (below other names) other references =
      ((records (below place names) place references).map
        (List.map (Record.inRoot other))).mapError (·.about (below other names)) := by
  unfold records
  rw [← mapM_moved]
  congr 1
  funext reference
  rw [ofReference_moved hsome hnames place other]
  cases Record.ofReference reference (.of (below place names) place) <;> rfl

section
variable {fs other tree : FileSystem} {workingDirectory otherDirectory place otherPlace : Path}
  {top otherTop : Location} (analyzer : Analyzer) (htree : tree.IsTree [])
  (h : fs.Reaches workingDirectory place top tree)
  (hother : other.Reaches otherDirectory otherPlace otherTop tree)
  (hfits : tree.FitsIn place) (hotherFits : tree.FitsIn otherPlace)
include htree h hother hfits hotherFits

/-- A file is reported alike in both places. -/
theorem reportBelow_moved {names : Location} (hfile : names ∈ tree.filesBelow []) :
    analyzer.reportBelow other otherDirectory otherPlace names =
      (analyzer.reportBelow fs workingDirectory place names).moved (below otherPlace names)
        otherPlace := by
  obtain ⟨hsome, content, permissions, hentry⟩ := h.file hfile
  have hnames := htree.isName hsome hentry
  have htext := readText_below h hother htree hfits hotherFits hfile
  unfold reportBelow
  simp only [isSource_below hsome hnames place language otherPlace]
  split
  · unfold reportSource extractFile
    rw [htext]
    cases fs.readText workingDirectory (below place names) with
    | error cause => rfl
    | ok text =>
      simp only
      cases (Extraction.ofText analyzer.filter analyzer.limit analyzer.parse text).result with
      | error fault => cases fault <;> rfl
      | ok references =>
        simp only
        rw [records_moved hsome hnames place otherPlace]
        rfl
  · rw [htext]
    rfl

end

end Analyzer

/-! ## The outcome of a tree -/

open FileSystem (below)

/-- Two diagnostics of one file in two places. -/
def Diagnostic.Moved (place other : Path) (diagnostic moved : Diagnostic) : Prop :=
  ∃ names stage before after,
    diagnostic = ⟨below place names, stage, before ++ (below place names).text ++ after⟩ ∧
    moved = ⟨below other names, stage, before ++ (below other names).text ++ after⟩

/-- Two lines of a composition for one file in two places. -/
def FileComposition.Moved (place other : Path) (file moved : FileComposition) : Prop :=
  ∃ names lines native, file = ⟨(below place names).text, lines, native⟩ ∧
    moved = ⟨(below other names).text, lines, native⟩

/-- Two outcomes for one tree in two places. -/
structure Outcome.Moved (place other : Path) (outcome moved : Outcome) : Prop where
  filesAnalyzed : moved.filesAnalyzed = outcome.filesAnalyzed
  records : moved.package.records = outcome.package.records.map (Record.inRoot other)
  diagnostics :
    List.Forall₂ (Diagnostic.Moved place other) outcome.diagnostics moved.diagnostics
  composition : List.Forall₂ (FileComposition.Moved place other) outcome.composition.files
    moved.composition.files

namespace FileReport

variable (place other : Path) (names : Location) (report : FileReport)

theorem diagnostic?_moved : Option.Rel (Diagnostic.Moved place other)
    (report.moved (below place names) place).diagnostic?
    (report.moved (below other names) other).diagnostic? := by
  cases report with
  | source _ lines findings result =>
    cases result with
    | ok => exact .none
    | error fault =>
      obtain ⟨before, after, hmessage⟩ := fault.message_about
      refine .some ⟨names, fault.stage, before, after, ?_, ?_⟩
      · simp only [Diagnostic.ofFault, Fault.stage_about, hmessage]
      · simp only [Diagnostic.ofFault, Fault.stage_about, hmessage]
  | other => exact .none

theorem composition?_moved : Option.Rel (FileComposition.Moved place other)
    (report.moved (below place names) place).composition?
    (report.moved (below other names) other).composition? := by
  cases report with
  | source _ lines findings result =>
    cases lines with
    | none => exact .none
    | some lines => exact .some ⟨names, lines, true, rfl, rfl⟩
  | other _ lines =>
    cases lines with
    | error => exact .none
    | ok lines => exact .some ⟨names, lines, false, rfl, rfl⟩

end FileReport

theorem forall₂_filterMap {α β γ : Type} {R : β → γ → Prop} {f : α → Option β} {g : α → Option γ}
    (h : ∀ item, Option.Rel R (f item) (g item)) (items : List α) :
    List.Forall₂ R (items.filterMap f) (items.filterMap g) := by
  induction items with
  | nil => exact .nil
  | cons item rest ih =>
    have hitem := h item
    rw [List.filterMap_cons, List.filterMap_cons]
    generalize f item = first at hitem ⊢
    generalize g item = second at hitem ⊢
    cases hitem with
    | none => exact ih
    | some hvalues => exact .cons hvalues ih

theorem Outcome.ofReports_moved (analyzer : Analyzer) (language : Language)
    (request otherRequest : Request) (name otherName : String) (place other : Path)
    (reports : Location → FileReport) (files : List Location) :
    Outcome.Moved place other
      (.ofReports analyzer language request name
        (files.map fun names => (reports names).moved (below place names) place))
      (.ofReports analyzer language otherRequest otherName
        (files.map fun names => (reports names).moved (below other names) other)) where
  filesAnalyzed := by
    simp only [ofReports, List.countP_map, Function.comp_def, FileReport.isAnalyzed_moved]
  records := by
    simp only [ofReports, List.flatMap_map, FileReport.records_moved, List.map_flatMap,
      List.map_map]
    rfl
  diagnostics := by
    simp only [ofReports, List.filterMap_map]
    exact forall₂_filterMap (fun names => (reports names).diagnostic?_moved place other names) files
  composition := by
    simp only [ofReports, List.filterMap_map]
    exact forall₂_filterMap
      (fun names => (reports names).composition?_moved place other names) files

/-! ## Whole analyses -/

namespace Analyzer

open FileSystem

variable {fs tree : FileSystem} {workingDirectory : Path} {components : List Component}
  {top : Location}

theorem reports_reaches (analyzer : Analyzer)
    (h : fs.Reaches workingDirectory (.ofComponents components) top tree) :
    let set := fs.enumerate workingDirectory language components
    set.files.map (analyzer.report fs workingDirectory set) =
      ((tree.filesBelow []).filter (isWalked (.ofComponents components))).map
        (analyzer.reportBelow fs workingDirectory (.ofComponents components)) := by
  intro set
  have hfiles : set.files = ((tree.filesBelow []).filter (isWalked (.ofComponents components))).map
      (below (.ofComponents components)) := by
    simp only [set, enumerate, h.leads, filesBelow_holds h.holds]
  have hroot : set.root = .ofComponents components := by
    simp only [set, enumerate, h.leads]
  rw [hfiles, List.map_map]
  refine List.map_congr_left fun names hnames => ?_
  have hfile : below (.ofComponents components) names ∈ set.files :=
    hfiles ▸ List.mem_map_of_mem hnames
  simp only [Function.comp_apply, report, reportBelow]
  rw [isInput_enumerate h.leads hfile, hroot]

/-- An analysis of a directory succeeds. Its outcome is put together from the reports of the files
in the tree that the directory holds, but for those that a walk does not come by. -/
theorem analyzeAt_reaches (analyzer : Analyzer) {request : Request} {place : Path}
    (hroot : request.root = none) (hexists : fs.exists? workingDirectory place = true)
    (hnormal : Path.absolute? workingDirectory place = some components)
    (h : fs.Reaches workingDirectory (.ofComponents components) top tree) :
    (analyzer.analyzeAt fs workingDirectory request place).result =
      .ok (.ofReports analyzer language request
        (request.packageName.getD (packageName workingDirectory request.input))
        (((tree.filesBelow []).filter (isWalked (.ofComponents components))).map
          (analyzer.reportBelow fs workingDirectory (.ofComponents components)))) := by
  rw [← reports_reaches analyzer h]
  simp only [analyzeAt, discover, hexists, hnormal, hroot, if_true]

/-- Two directories that hold one tree are analyzed alike. -/
theorem analyzeAt_moved (analyzer : Analyzer) {other : FileSystem} {request otherRequest : Request}
    {otherDirectory place otherPlace : Path} {otherComponents : List Component}
    {otherTop : Location} (htree : tree.IsTree [])
    (hroot : request.root = none) (hotherRoot : otherRequest.root = none)
    (hexists : fs.exists? workingDirectory place = true)
    (hotherExists : other.exists? otherDirectory otherPlace = true)
    (hnormal : Path.absolute? workingDirectory place = some components)
    (hotherNormal : Path.absolute? otherDirectory otherPlace = some otherComponents)
    (h : fs.Reaches workingDirectory (.ofComponents components) top tree)
    (hother : other.Reaches otherDirectory (.ofComponents otherComponents) otherTop tree)
    (hfits : tree.FitsIn (.ofComponents components))
    (hotherFits : tree.FitsIn (.ofComponents otherComponents)) :
    ∃ outcome otherOutcome,
      (analyzer.analyzeAt fs workingDirectory request place).result = .ok outcome ∧
      (analyzer.analyzeAt other otherDirectory otherRequest otherPlace).result =
        .ok otherOutcome ∧
      Outcome.Moved (.ofComponents components) (.ofComponents otherComponents) outcome
        otherOutcome := by
  have hresult := analyzeAt_reaches analyzer hroot hexists hnormal h
  have hotherResult := analyzeAt_reaches analyzer hotherRoot hotherExists hotherNormal hother
  rw [h.walked htree hfits] at hresult
  rw [hother.walked htree hotherFits] at hotherResult
  rw [List.map_congr_left fun names hnames =>
    reportBelow_moved analyzer htree h h hfits hfits hnames] at hresult
  rw [List.map_congr_left fun names hnames =>
    reportBelow_moved analyzer htree h hother hfits hotherFits hnames] at hotherResult
  exact ⟨_, _, hresult, hotherResult, Outcome.ofReports_moved ..⟩

/-! ## Places that are too deep -/

theorem isAnalyzed_long {analyzer : Analyzer} {place : Path} {names : Location}
    (h : pathLimit ≤ (below place names).bytes.size) :
    (analyzer.reportBelow fs workingDirectory place names).isAnalyzed = false := by
  unfold reportBelow
  simp only [reportSource, extractFile, readText_long h]
  split <;> rfl

theorem archive?_of_directory? {input : Path}
    (h : fs.directory? workingDirectory input = some top) :
    archive? fs workingDirectory input = none := by
  obtain ⟨permissions, hstat⟩ := stat_of_directory? h
  simp [archive?, isFile, hstat]

/-- Where the paths of all files are too long, the analysis succeeds and no file is analyzed. -/
theorem analyzeAt_long (analyzer : Analyzer) (request : Request) {place : Path}
    (hroot : request.root = none) (hexists : fs.exists? workingDirectory place = true)
    (hnormal : Path.absolute? workingDirectory place = some components)
    (h : fs.Reaches workingDirectory (.ofComponents components) top tree)
    (hlong : ∀ names ∈ tree.filesBelow [],
      pathLimit ≤ (below (.ofComponents components) names).bytes.size) :
    ∃ outcome, (analyzer.analyzeAt fs workingDirectory request place).result = .ok outcome ∧
      outcome.filesAnalyzed = 0 := by
  refine ⟨_, analyzeAt_reaches analyzer hroot hexists hnormal h, ?_⟩
  simp only [Outcome.ofReports, List.countP_eq_zero, List.mem_map, Bool.not_eq_true]
  rintro report ⟨names, hnames, rfl⟩
  exact isAnalyzed_long (hlong names (List.mem_filter.mp hnames).1)

theorem analyze_under_long (analyzer : Analyzer) (setting : Setting) {names : Location}
    (hnames : ∀ name ∈ names, IsName name) (hsome : names ≠ [])
    (hshort : ∀ name ∈ names, name.size ≤ nameLimit)
    (hpath : (fromRoot names).bytes.size < pathLimit)
    (hlong : ∀ file ∈ (tree.subtree []).filesBelow [],
      pathLimit ≤ (fromRoot (names ++ file)).bytes.size)
    (packageName packageVersion : Option String) :
    ∃ outcome, (analyzer.analyze setting (under names tree)
        ⟨fromRoot names, none, packageName, packageVersion⟩).result = .ok outcome ∧
      outcome.filesAnalyzed = 0 := by
  have hreaches := reaches_under hnames hsome hshort hpath setting.workingDirectory tree
  have hleads := hreaches.leads
  have hnone := archive?_of_directory? hleads
  obtain ⟨components, hcomponents, hnormal⟩ := Option.map_eq_some_iff.mp
    (absolute?_fromRoot hnames setting.workingDirectory)
  rw [← hnormal] at hreaches
  simp only [fromRoot_append, ← hnormal] at hlong
  obtain ⟨outcome, hresult, hzero⟩ := analyzeAt_long analyzer
    ⟨fromRoot names, none, packageName, packageVersion⟩ rfl (exists?_of_directory? hleads)
    hcomponents hreaches hlong
  refine ⟨outcome, ?_, hzero⟩
  simpa only [analyze, hnone] using hresult

end Analyzer
end CallSift

import CallSift.Activity
import CallSift.Archive.Unpack
import CallSift.Discovery
import CallSift.Extraction

/-!
# Analyzing an input

The files under an input are looked at one by one. A source that cannot be read,
parsed or walked becomes a diagnostic, and the next one follows; a file that is
no source only counts for the composition. An archive is unpacked first, and what
was unpacked is taken away at the end.

* `Analyzer.report` looks at one file.
* `Outcome.ofReports` puts the reports of all files together.
* `Analyzer.analyze` is the whole analysis, which changes nothing for good.
-/
namespace CallSift

/-- What a run is asked to do. -/
structure Request where
  input : Path
  root : Option Path
  packageName : Option String
  packageVersion : Option String
  deriving DecidableEq, Repr

/-- What analyses have in common. -/
structure Analyzer where
  /-- The references that are wanted; all, if there is no list. -/
  allowList : Option AllowList
  /-- Deepest level of a tree that a walk enters. -/
  limit : Nat
  /-- The syntax tree of a text. -/
  parse : String → Option Node

/-- What one file gives. -/
inductive FileReport where
  /-- A source, its lines if it can be read, and its records. -/
  | source (path : Path) (lines : Option Nat) (findings : List Finding)
    (result : Except Fault (List Record))
  /-- Any other file and its lines. -/
  | other (path : Path) (lines : Except IoCause Nat)

/-- Lines of a text: one more than there are line feeds. -/
def lineCount (text : String) : Nat := text.toList.count '\n' + 1

namespace FileReport

def records : FileReport → List Record
  | source _ _ _ (.ok records) => records
  | _ => []

def diagnostic? : FileReport → Option Diagnostic
  | source path _ _ (.error fault) => some (.ofFault path fault)
  | _ => none

def composition? : FileReport → Option FileComposition
  | source path (some lines) _ _ => some ⟨path.text, lines, true⟩
  | other path (.ok lines) => some ⟨path.text, lines, false⟩
  | _ => none

/-- The file is a source and gave its records. -/
def isAnalyzed : FileReport → Bool
  | source _ _ _ (.ok _) => true
  | _ => false

def events : FileReport → List LogEvent
  | source path _ findings result =>
    .analyzing path :: findings.map .finding ++
      [match result with
        | .ok records => .accepted records.length path
        | .error fault => .skipped path fault]
  | other _ (.ok _) => []
  | other path (.error cause) => [.uncounted path cause]

end FileReport

/-- What an analysis answers. -/
structure Outcome where
  package : PackageResult
  diagnostics : List Diagnostic
  composition : Composition
  filesAnalyzed : Nat
  deriving DecidableEq, Repr

namespace Outcome

def results (outcome : Outcome) : PackageResults := ⟨[outcome.package]⟩

/-- The reports of all files, in order, under the name of a package. -/
def ofReports (analyzer : Analyzer) (language : Language) (request : Request) (name : String)
    (reports : List FileReport) : Outcome where
  package :=
    { name, version := request.packageVersion, language, allowList := analyzer.allowList
      records := reports.flatMap FileReport.records }
  diagnostics := reports.filterMap FileReport.diagnostic?
  composition := ⟨reports.filterMap FileReport.composition?⟩
  filesAnalyzed := reports.countP FileReport.isAnalyzed

end Outcome

namespace Analyzer

def language : Language := .ruby

def filter (analyzer : Analyzer) : Filter := .ofAllowList? analyzer.allowList

/-- What the log says when an analyzer is set up. -/
def events (analyzer : Analyzer) : List LogEvent :=
  if analyzer.allowList.any AllowList.saveFeature then [.featuresNotCollected] else []

/-- The records of a file's references: all of them, or the first fault. -/
def records (file root : Path) (references : List Reference) : Except Fault (List Record) :=
  references.mapM fun reference =>
    (Record.ofReference reference (.of file root)).mapError fun fault =>
      .malformedRange file fault.message

/-- The references of a file. -/
def extractFile (analyzer : Analyzer) (fs : FileSystem) (workingDirectory file : Path) :
    Except Fault (String × Extraction) :=
  match fs.readText workingDirectory file with
  | .error cause => .error (.fileRead file cause)
  | .ok text => .ok (text, .ofText analyzer.filter analyzer.limit analyzer.parse text)

/-- Looks at a source. -/
def reportSource (analyzer : Analyzer) (fs : FileSystem) (workingDirectory root file : Path) :
    FileReport :=
  match analyzer.extractFile fs workingDirectory file with
  | .error fault => .source file none [] (.error fault)
  | .ok (text, extraction) =>
    .source file (some (lineCount text)) extraction.trace <|
      match extraction.result with
      | .error fault => .error (fault.toFault file)
      | .ok references => records file root references

/-- Looks at a file. -/
def report (analyzer : Analyzer) (fs : FileSystem) (workingDirectory : Path) (set : InputSet)
    (file : Path) : FileReport :=
  if set.isInput file then analyzer.reportSource fs workingDirectory set.root file
  else .other file ((fs.readText workingDirectory file).map lineCount)

/-- What the log says of the whole. -/
def summary (outcome : Outcome) (set : InputSet) : LogEvent :=
  .extracted outcome.package.records.length outcome.filesAnalyzed set.inputs.length
    outcome.diagnostics.length

/-- Analyzes what lies at a place, which need not be the input itself. -/
def analyzeAt (analyzer : Analyzer) (fs : FileSystem) (workingDirectory : Path)
    (request : Request) (place : Path) : Activity Outcome :=
  match fs.discover workingDirectory language place request.root with
  | .error fault => ⟨fs, [], .error fault⟩
  | .ok set =>
    let name := request.packageName.getD (packageName workingDirectory request.input)
    let reports := set.files.map (analyzer.report fs workingDirectory set)
    let outcome := Outcome.ofReports analyzer language request name reports
    ⟨fs, set.events language ++ reports.flatMap FileReport.events ++ [summary outcome set],
      .ok outcome⟩

/-- Analyzes an archive by way of a directory of its own. -/
def analyzeArchive (analyzer : Analyzer) (setting : Setting) (fs : FileSystem)
    (request : Request) (kind : ArchiveKind) : Activity Outcome :=
  match fs.unpack setting request.input kind with
  | (fs, .error cause) => ⟨fs, [.unpacking request.input], .error (.unpack request.input cause)⟩
  | (fs, .ok directory) =>
    let analysis := analyzer.analyzeAt fs setting.workingDirectory request directory.path
    ⟨analysis.fileSystem.leave directory,
      .unpacking request.input :: .unpacked request.input directory.path :: analysis.log,
      analysis.result⟩

/-- The kind of archive that an input is: by its name, and a file. -/
def archive? (fs : FileSystem) (workingDirectory input : Path) : Option ArchiveKind :=
  (ArchiveKind.of? input).filter fun _ => fs.isFile workingDirectory input

/-- Analyzes an input. -/
def analyze (analyzer : Analyzer) (setting : Setting) (fs : FileSystem) (request : Request) :
    Activity Outcome :=
  match archive? fs setting.workingDirectory request.input with
  | some kind => analyzer.analyzeArchive setting fs request kind
  | none => analyzer.analyzeAt fs setting.workingDirectory request request.input

end Analyzer
end CallSift

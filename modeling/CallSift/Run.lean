import CallSift.Analysis
import CallSift.Json.Printer
import CallSift.Record.Codec

/-!
# Runs

A run analyzes an input and writes what it found: the records of the package, and
the composition if it is asked for. Nothing is written when the analysis fails.

* `FileSystem.writeDocument` writes a document to a file.
* `Analyzer.run` is the whole run.
-/
namespace CallSift

namespace FileSystem

/-- Writes a value on lines of its own, with a line feed at the end. -/
def writeDocument (fs : FileSystem) (workingDirectory file : Path) (value : Json.Value) :
    Activity Unit :=
  match fs.write workingDirectory file (value.pretty ++ "\n").toUTF8 with
  | .error error => ⟨fs, [], .error (.outputWrite file (.os error))⟩
  | .ok fs => ⟨fs, [.wrote file], .ok ()⟩

end FileSystem

/-- Where a run writes. -/
structure Outputs where
  results : Path
  composition : Option Path
  deriving DecidableEq, Repr

namespace Outputs

/-- Writes an outcome. -/
def write (outputs : Outputs) (workingDirectory : Path) (fs : FileSystem) (outcome : Outcome) :
    Activity Unit :=
  (fs.writeDocument workingDirectory outputs.results outcome.results.encode).andThen fun fs _ =>
    match outputs.composition with
    | none => ⟨fs, [], .ok ()⟩
    | some file => fs.writeDocument workingDirectory file outcome.composition.encode

end Outputs

namespace Analyzer

/-- Analyzes an input and writes the outcome. -/
def run (analyzer : Analyzer) (setting : Setting) (fs : FileSystem) (request : Request)
    (outputs : Outputs) : Activity Outcome :=
  (analyzer.analyze setting fs request).andThen fun fs outcome =>
    (outputs.write setting.workingDirectory fs outcome).andThen fun fs _ =>
      ⟨fs, [], .ok outcome⟩

end Analyzer
end CallSift

import CallSift.Fault.Basic
import CallSift.Syntax.Faulty
import CallSift.Walk.Basic

/-!
# References of one source

An extraction joins the two parts: a tree with a syntax error is rejected, any
other is walked with a filter, and the references found are the result. All that
is found goes to a trace, which ends where the walk ends.
-/
namespace CallSift

/-- Why a source gives no references. -/
inductive ExtractionFault where
  /-- There is no tree of the source. -/
  | noTree
  | malformed (fault : SyntaxFault)
  | walk (fault : WalkFault)
  deriving DecidableEq

namespace ExtractionFault

/-- The fault of the file that the source was read from. -/
def toFault (path : Path) : ExtractionFault → Fault
  | noTree => .parse path "parser produced no tree"
  | malformed fault => .parse path fault.message
  | walk fault => .traversal path fault.message

end ExtractionFault

structure Extraction where
  /-- The findings up to the end or the fault. -/
  trace : List Finding
  result : Except ExtractionFault (List Reference)

namespace Extraction

/-- The outcome of a walk. -/
def ofSteps (steps : Steps) : Extraction :=
  match steps.ending with
  | .ok _ => ⟨steps.findings, .ok (steps.findings.filterMap Finding.reference?)⟩
  | .error fault => ⟨steps.findings, .error (.walk fault)⟩

/-- The references of a source with the given tree. -/
def run (filter : Filter) (limit : Nat) (source : Source) (tree : Node) : Extraction :=
  match SyntaxFault.of? source tree with
  | some fault => ⟨[], .error (.malformed fault)⟩
  | none => ofSteps (tree.walk source filter limit)

/-- The references of a text whose tree is looked up. -/
def ofText (filter : Filter) (limit : Nat) (parse : String → Option Node) (text : String) :
    Extraction :=
  match parse text with
  | none => ⟨[], .error .noTree⟩
  | some tree => run filter limit (.ofString text) tree

end Extraction
end CallSift

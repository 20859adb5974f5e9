import CallSift.Json.Reader
import CallSift.Syntax.Alias
import CallSift.Text

/-!
# Trees as documents

A tree is written as the list of its nodes in pre-order. A node is an array: kind,
first byte, byte behind the last one, flags, number of children, and, if it has
any, the names of its fields joined by commas.

* `Node.ofDocument?` reads a tree.
* `ParsedText.ofLine?` reads a text with its tree.
-/
namespace CallSift

open Json

namespace NodeInfo

/-- The flag of a place is set. -/
def flag (flags place : Nat) : Bool := flags.testBit place

/-- A node as it stands in a document, and the number of its children. -/
def ofDocument? : Value → Option (NodeInfo × Nat)
  | .array (.string kind :: .token start :: .token stop :: .token flags :: .token children ::
      rest) => do
    let flags ← flags.toNat?
    let fields ← match rest with
      | [] => some []
      | [.string names] =>
        some (((Text.splitAt ',' names.toList).filter (· ≠ [])).map String.ofList)
      | _ => none
    return (
      { kind, ownKind := kind, start := ← start.toNat?, stop := ← stop.toNat?, fields
        named := flag flags 0, isError := flag flags 1, isMissing := flag flags 2
        hasError := flag flags 3 },
      ← children.toNat?)
  | _ => none

end NodeInfo

namespace Node

/-- The tree of a document, every node under its own kind. -/
def ofDocument? (value : Value) : Option Node :=
  match value with
  | .array nodes => (nodes.mapM NodeInfo.ofDocument?).bind ofPreorder?
  | _ => none

end Node

/-- A text and its tree as a traversal meets it. -/
structure ParsedText where
  source : String
  tree : Node

namespace ParsedText

/-- A text with its tree, as members `source` and `tree` of an object. -/
def ofDocument? (value : Value) : Option ParsedText :=
  match value.member? "source", value.member? "tree" with
  | some (.string source), some tree => (Node.ofDocument? tree).map (⟨source, ·.asMet⟩)
  | _, _ => none

def ofLine? (line : String) : Option ParsedText := (read? line).bind ofDocument?

/-- The tree of a text among parsed texts. -/
def lookup (texts : List ParsedText) (source : String) : Option Node :=
  (texts.find? (·.source = source)).map tree

end ParsedText
end CallSift

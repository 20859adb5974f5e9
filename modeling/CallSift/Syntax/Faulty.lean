import CallSift.Source
import CallSift.Syntax.Node

/-!
# The first syntax error of a tree

A tree is rejected when it holds an error node or a missing token. The search
skips every subtree without the `hasError` flag.

* `Node.firstFaulty?` finds the first such node together with its place in
  pre-order.
* `SyntaxFault.of?` is the report about it. Its column counts bytes.
-/
namespace CallSift

namespace Node

mutual
/-- Nodes of a tree. -/
def size : Node → Nat
  | mk _ children => sizeAll children + 1
/-- Nodes of a list of trees. -/
def sizeAll : List Node → Nat
  | [] => 0
  | node :: rest => size node + sizeAll rest
end

mutual
/-- The first faulty node of a tree whose root has number `index` in pre-order. -/
def firstFaulty? (index : Nat) : Node → Option (Nat × Node)
  | mk info children =>
    if info.isFaulty then some (index, mk info children)
    else if info.hasError then firstFaultyOf? (index + 1) children
    else none
/-- The first faulty node of trees that lie side by side. -/
def firstFaultyOf? (index : Nat) : List Node → Option (Nat × Node)
  | [] => none
  | node :: rest =>
    match firstFaulty? index node with
    | some found => some found
    | none => firstFaultyOf? (index + node.size) rest
end

end Node

/-- Why a tree is rejected, and where: `row` and `byteColumn` count from zero. -/
structure SyntaxFault where
  /-- The kind of the token that the source lacks; absent at an error node. -/
  missing : Option String
  row : Nat
  byteColumn : Nat
  deriving DecidableEq

namespace SyntaxFault

def ofNode (source : Source) (node : Node) : SyntaxFault where
  missing := if node.info.isMissing then some node.kind else none
  row := source.row node.start
  byteColumn := source.byteColumn node.start

/-- The fault for which a tree is rejected, if any. -/
def of? (source : Source) (tree : Node) : Option SyntaxFault :=
  (tree.firstFaulty? 0).map fun found => ofNode source found.2

def message (fault : SyntaxFault) : String :=
  let what := match fault.missing with
    | some kind => s!"missing {kind}"
    | none => "syntax error"
  s!"{what} at line {fault.row + 1}, column {fault.byteColumn}"

end SyntaxFault
end CallSift

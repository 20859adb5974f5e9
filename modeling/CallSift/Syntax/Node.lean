/-!
# Syntax trees

A concrete syntax tree as a parser hands it over: every node, keywords and
punctuation included, with its kind, its byte range, its flags and the field
names under which its parent lists it.

A node has two kinds, which differ only below aliases: `kind` is what a
traversal from the root meets it as, `ownKind` what its children know it as.

* `Node.preorder` lists a tree's nodes, a node before its children.
* `Node.ofPreorder?` reads a tree back from that list when every node comes
  with the number of its children.
-/
namespace CallSift

/-- What a node says about itself. `fields` are the names for which the parent's
look-up by field name answers this node. -/
structure NodeInfo where
  kind : String
  ownKind : String
  start : Nat
  stop : Nat
  named : Bool
  isError : Bool
  isMissing : Bool
  hasError : Bool
  fields : List String
  deriving DecidableEq

/-- The node is a syntax error or stands for a token that the source lacks. -/
def NodeInfo.isFaulty (info : NodeInfo) : Bool := info.isError || info.isMissing

inductive Node where
  | mk (info : NodeInfo) (children : List Node)

namespace Node

def info : Node → NodeInfo
  | mk info _ => info

def children : Node → List Node
  | mk _ children => children

def kind (node : Node) : String := node.info.kind

def ownKind (node : Node) : String := node.info.ownKind

def start (node : Node) : Nat := node.info.start

def stop (node : Node) : Nat := node.info.stop

/-- The parent lists this node under `field`. -/
def isField (field : String) (node : Node) : Bool := node.info.fields.contains field

/-- The child listed under `field`. -/
def child? (node : Node) (field : String) : Option Node := node.children.find? (isField field)

/-- Named children, comments left out. -/
def operands (node : Node) : List Node :=
  node.children.filter fun child => child.info.named && child.kind != "comment"

/-! ## Pre-order -/

mutual
/-- The nodes of a tree, a node before its children. -/
def preorder : Node → List Node
  | mk info children => mk info children :: preorderAll children
/-- The nodes of a list of trees. -/
def preorderAll : List Node → List Node
  | [] => []
  | node :: rest => preorder node ++ preorderAll rest
end

/-- Puts a node on top of the trees that follow it: it takes its children off the front. -/
def graft (entry : NodeInfo × Nat) (forest : List Node) : Option (List Node) :=
  if entry.2 ≤ forest.length then
    some (mk entry.1 (forest.take entry.2) :: forest.drop entry.2)
  else none

/-- The tree whose nodes in pre-order, with their numbers of children, are given. -/
def ofPreorder? (entries : List (NodeInfo × Nat)) : Option Node :=
  match entries.foldr (fun entry forest => forest.bind (graft entry)) (some []) with
  | some [root] => some root
  | _ => none

end Node
end CallSift

import CallSift.Syntax.Node

/-!
# Extra nodes below aliases

A grammar gives some nodes the kind of another rule: an alias. Comments, bodies
of here-documents and syntax errors are extra nodes, which stand anywhere. A
traversal that enters an aliased node meets the extra nodes in it as nodes of
the alias: such an error is not recognised as one, and such a comment inside a
call is taken for a call. Their children still know them by their own kind.

* `Node.isAliased` tells aliased nodes by their kind and shape.
* `Node.asMet` gives the extra nodes of a whole tree the kinds they are met as.
* `Node.apart` does so for the children of one node.
-/
namespace CallSift.Node

/-- The kinds of the nodes that the grammar allows everywhere. -/
def extraKinds : List String := ["comment", "heredoc_body", "ERROR"]

/-- A node that the grammar allows everywhere. -/
def isExtra (node : Node) : Bool := extraKinds.contains node.ownKind

/-- A character without a token: an error without children, which is an ordinary part of the error
around it. -/
def isStray (node : Node) : Bool := node.ownKind == "ERROR" && node.children.isEmpty

/-- A child that its parent holds as an extra node. -/
def holdsExtra (parent child : Node) : Bool :=
  child.isExtra && !(parent.ownKind == "ERROR" && child.isStray)

/-- Some child stands under the field. -/
def hasField (node : Node) (field : String) : Bool := (node.child? field).isSome

/-- The kind of the first child that is not extra. -/
def opening (node : Node) : Option String :=
  (node.children.find? fun child => !child.isExtra).map ownKind

/-- Kinds that only aliases have. -/
def aliasKinds : List String :=
  ["lambda_parameters", "destructured_parameter", "bare_string", "bare_symbol"]

/-- Kinds of patterns that are aliases when nothing encloses their parts. -/
def patternKinds : List String := ["array_pattern", "find_pattern", "hash_pattern"]

/-- The kinds that aliases give to nodes. -/
def aliasedKinds : List String := "call" :: aliasKinds ++ patternKinds

/-- A call whose arguments stand without parentheses. -/
def isCommand (node : Node) : Bool :=
  (node.child? "arguments").any fun arguments => arguments.opening != some "("

/-- The forms of a call that are aliases: one with a receiver and nothing behind its name, and a
command. A command with a block on which another call is made has a form of its own. -/
def isAliasedCall (node : Node) : Bool :=
  if node.hasField "arguments" then
    node.isCommand && !(node.hasField "block" && node.isField "receiver")
  else node.hasField "receiver" && !node.hasField "block"

/-- The grammar gives the node the kind of another rule: parameters of a lambda or in
parentheses, a word of a word array, some calls, or a pattern without brackets and class. -/
def isAliased (node : Node) : Bool :=
  aliasKinds.contains node.ownKind ||
  (node.ownKind == "call" && node.isAliasedCall) ||
  (patternKinds.contains node.ownKind && !node.hasField "class" &&
    node.opening != some "[" && node.opening != some "\x7b")

/-- A node that is met as another kind is no error to a traversal. -/
def metAs (info : NodeInfo) (met : Option String) : NodeInfo :=
  match met with
  | some kind => { info with kind := kind, named := true, isError := false }
  | none => info

/-- The kind that a child is met as, if not as its own. Extra children take the kind that their
parent was met as or, when it was met as itself, the kind that an alias gives it. -/
def metKind (met : Option String) (parent child : Node) : Option String :=
  if holdsExtra parent child then
    met.or (if parent.isAliased then some parent.ownKind else none)
  else none

/-- The node with its children as a look at this node alone meets them. -/
def apart (node : Node) : Node :=
  mk node.info
    (node.children.map fun child => mk (metAs child.info (metKind none node child)) child.children)

mutual
/-- The tree below a node that is met as the given kind, if not as its own. -/
def metFrom (met : Option String) : Node → Node
  | mk info children => mk (metAs info met) (metAll met (mk info children) children)
/-- Children of a node that is met as the given kind. -/
def metAll (met : Option String) (parent : Node) : List Node → List Node
  | [] => []
  | node :: rest => metFrom (metKind met parent node) node :: metAll met parent rest
end

/-- The tree as a traversal from the root meets it. -/
def asMet (root : Node) : Node := metFrom none root

end CallSift.Node

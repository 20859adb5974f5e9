import CallSift.Syntax.Node

/-!
# What an identifier stands for

An identifier is judged by its parent alone: by the parent's kind and by the
field under which the parent lists it.
-/
namespace CallSift

inductive Role where
  /-- Assignment target, parameter or pattern variable. -/
  | binding
  /-- Name of a called or defined method, in an alias, an undefinition or a setter. -/
  | name
  /-- Receiver of a call, which the call reports as its qualifier. -/
  | receiver
  /-- Anything else: a local variable or a call without receiver and arguments. -/
  | read
  deriving DecidableEq, Repr

namespace Role

/-- Kinds of nodes whose identifier children are all bound by them. -/
def binders : List String :=
  ["left_assignment_list", "destructured_left_assignment", "rest_assignment",
   "method_parameters", "block_parameters", "lambda_parameters",
   "destructured_parameter", "splat_parameter", "hash_splat_parameter", "block_parameter",
   "exception_variable", "array_pattern", "find_pattern", "alternative_pattern",
   "keyword_pattern"]

/-- Kinds of nodes that bind the identifier listed under the paired field. -/
def fieldBinders : List (String × String) :=
  [("assignment", "left"), ("operator_assignment", "left"),
   ("optional_parameter", "name"), ("keyword_parameter", "name"), ("as_pattern", "name"),
   ("for", "pattern"), ("in_clause", "pattern")]

/-- The role of an identifier in a parent of the given kind. -/
def under (parent : String) (node : Node) : Role :=
  if parent = "call" ∧ node.isField "receiver" then .receiver
  else if parent ∈ ["call", "method", "singleton_method"] ∧
      (node.isField "name" ∨ node.isField "method") then .name
  else if parent ∈ ["alias", "undef", "setter"] then .name
  else if fieldBinders.any fun binder => parent = binder.1 ∧ node.isField binder.2 then .binding
  else if parent ∈ binders then .binding
  else .read

def of (parent : Option Node) (node : Node) : Role :=
  match parent with
  | some parent => under parent.ownKind node
  | none => .read

end Role
end CallSift

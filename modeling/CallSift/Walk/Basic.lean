import CallSift.AllowList.Filter
import CallSift.Walk.Recognition

/-!
# Walking a tree

A walk visits the nodes in pre-order and lists what it finds: references and
the bodies of methods. It keeps the local variables in sight, and it stops at the
first node that lies too deep or cannot be read; what it found until then stays.

Every reference is offered to a filter as soon as it is found. A rejected one is
no finding, and the walk goes on below it as it does below any other node.

* `Steps` is a run of the walk: its findings, and the frames it ends with or the
  fault that stopped it. `Steps.andThen` runs one after the other.
* `Node.walk` is the walk over a whole source.
-/
namespace CallSift

/-- Deepest nesting that a walk follows unless told otherwise. -/
def defaultDepth : Nat := 2048

inductive Finding where
  | reference (reference : Reference)
  | methodBody (name : String) (line : Nat)
  | singletonMethodBody (object name : String) (line : Nat)
  deriving DecidableEq, Repr

namespace Finding

def reference? : Finding → Option Reference
  | reference r => some r
  | _ => none

end Finding

/-- A run of the walk: what it found, and how it ended. -/
structure Steps where
  findings : List Finding
  ending : Except WalkFault Scopes

namespace Steps

/-- Nothing found. -/
def done (scopes : Scopes) : Steps := ⟨[], .ok scopes⟩

def found (findings : List Finding) (scopes : Scopes) : Steps := ⟨findings, .ok scopes⟩

def failed (fault : WalkFault) : Steps := ⟨[], .error fault⟩

/-- Goes on from where a run ended, unless it was stopped. -/
def andThen (steps : Steps) (next : Scopes → Steps) : Steps :=
  match steps.ending with
  | .ok scopes =>
    let after := next scopes
    ⟨steps.findings ++ after.findings, after.ending⟩
  | .error _ => steps

def ofExcept (result : Except WalkFault Steps) : Steps :=
  match result with
  | .ok steps => steps
  | .error fault => failed fault

/-- A reference is found, if the filter accepts it. -/
def offer (filter : Filter) (reference : Reference) (scopes : Scopes) : Steps :=
  if filter.accepts reference then found [.reference reference] scopes else done scopes

end Steps

namespace Node

/-- What an identifier contributes: a binding, a reference or nothing. -/
def visitIdentifier (source : Source) (filter : Filter) (parent : Option Node) (node : Node)
    (scopes : Scopes) : Except WalkFault Steps :=
  (node.text source).map fun name =>
    match Role.of parent node with
    | .binding => .done (scopes.declare name)
    | .name | .receiver => .done scopes
    | .read =>
      if scopes.binds name then .done scopes
      else .offer filter (node.bareReference source name) scopes

/-- What a node contributes by itself. -/
def visit (source : Source) (filter : Filter) (parent : Option Node) (node : Node)
    (scopes : Scopes) : Steps :=
  .ofExcept <|
    match node.kind with
    | "call" => (node.callReference source parent).map fun
        | some reference => .offer filter reference scopes
        | none => .done scopes
    | "subshell" => (node.commandReference source).map fun reference =>
        .offer filter reference scopes
    | "identifier" => node.visitIdentifier source filter parent scopes
    | "method" =>
        .ok (.found [.methodBody (node.fieldText source "name") (node.firstLine source)] scopes)
    | "singleton_method" =>
        .ok (.found [.singletonMethodBody (node.fieldText source "object")
          (node.fieldText source "name") (node.firstLine source)] scopes)
    | _ => .ok (.done scopes)

/-- The frames that a node and all below it see. -/
def enterScope (info : NodeInfo) (scopes : Scopes) : Scopes :=
  match ScopeKind.of? info.kind with
  | some kind => scopes.enter kind
  | none => scopes

/-- The frames after a node. -/
def leaveScope (info : NodeInfo) (scopes : Scopes) : Scopes :=
  match ScopeKind.of? info.kind with
  | some _ => scopes.leave
  | none => scopes

mutual
/-- The walk over a tree whose root lies at the given depth. -/
def walkFrom (source : Source) (filter : Filter) (limit depth : Nat) (parent : Option Node)
    (scopes : Scopes) : Node → Steps
  | mk info children =>
    if limit < depth then .failed (fault source (mk info children) (.tooDeep limit))
    else
      ((visit source filter parent (mk info children) (enterScope info scopes)).andThen fun scopes =>
        walkAll source filter limit (depth + 1) (mk info children) scopes children).andThen
          fun scopes => .done (leaveScope info scopes)
/-- The walk over the children of a node, from left to right. -/
def walkAll (source : Source) (filter : Filter) (limit depth : Nat) (parent : Node)
    (scopes : Scopes) : List Node → Steps
  | [] => .done scopes
  | node :: rest =>
    (walkFrom source filter limit depth (some parent) scopes node).andThen fun scopes =>
      walkAll source filter limit depth parent scopes rest
end

/-- The walk over a whole tree. -/
def walk (source : Source) (filter : Filter) (limit : Nat) (root : Node) : Steps :=
  walkFrom source filter limit 0 none .top root

end Node
end CallSift

import CallSift.Reference
import CallSift.Syntax.Node
import CallSift.Walk.Role
import CallSift.Walk.Scope

/-!
# The reference of a single node

* `Node.callReference` reads a call: name, receiver, arguments and extent. The
  left side of an assignment is a setter, and the assignment's extent is its own.
* `Node.commandReference` reads a backtick literal, whose interpolations are its
  arguments.
* `Node.bareReference` reads an identifier that nothing in sight binds.

A tree whose offsets do not fit the source, or a call without name and
arguments, is a `WalkFault`.
-/
namespace CallSift

/-- What stops a walk. -/
inductive WalkReason where
  | tooDeep (limit : Nat)
  | namelessCall
  | unreadable (kind : String)
  deriving DecidableEq, Repr

namespace WalkReason

def message : WalkReason → String
  | tooDeep limit => s!"nesting exceeds {limit} levels"
  | namelessCall => "call without a method name"
  | unreadable kind => s!"{kind} node is not valid UTF-8"

end WalkReason

/-- What stopped a walk, and the line, counted from one, where the node begins. -/
structure WalkFault where
  reason : WalkReason
  line : Nat
  deriving DecidableEq, Repr

namespace WalkFault

def message (fault : WalkFault) : String := s!"{fault.reason.message} at line {fault.line}"

end WalkFault

namespace Node

/-- First line of a node, counted from one. -/
def firstLine (source : Source) (node : Node) : Nat := source.row node.start + 1

/-- Last line of a node, counted from one. -/
def lastLine (source : Source) (node : Node) : Nat := source.row node.stop + 1

def fault (source : Source) (node : Node) (reason : WalkReason) : WalkFault :=
  ⟨reason, node.firstLine source⟩

/-- The text from the start of one node to the end of another. -/
def spanText? (source : Source) (first last : Node) : Option String :=
  source.slice? first.start last.stop

def text? (source : Source) (node : Node) : Option String := spanText? source node node

/-- The text of the child under a field; empty without such a child. -/
def fieldText (source : Source) (node : Node) (field : String) : String :=
  ((node.child? field).bind (text? source)).getD ""

/-- `spanText?`, or the fault that the offsets do not fit the source. -/
def spanText (source : Source) (first last : Node) : Except WalkFault String :=
  match spanText? source first last with
  | some text => .ok text
  | none => .error (first.fault source (.unreadable first.kind))

def text (source : Source) (node : Node) : Except WalkFault String := spanText source node node

/-- Extent from the start of one node to the end of another. -/
def spanTo (source : Source) (first last : Node) : Span :=
  Span.ofOffsets source first.start last.stop

/-! ## Calls -/

/-- The name a call is made by: `none` for a call of the parent's method. A call with
arguments alone calls `call`. -/
def calledName (source : Source) (node : Node) : Except WalkFault (Option String) :=
  match node.child? "method" with
  | some method => if method.kind = "super" then .ok none else (method.text source).map some
  | none =>
    match node.child? "arguments" with
    | some _ => .ok (some "call")
    | none => .error (node.fault source .namelessCall)

/-- The texts of an argument list; `none` when it is empty. -/
def argumentTexts (source : Source) (list : Node) : Except WalkFault (Option (List String)) :=
  match list.operands with
  | [] => .ok none
  | operands => (operands.mapM (text source)).map some

/-- Applies a fallible reading to an optional node. -/
def readOptional {α : Type} (read : Node → Except WalkFault α) :
    Option Node → Except WalkFault (Option α)
  | some node => (read node).map some
  | none => .ok none

/-- The node with which a call's own extent ends: an attached block is left out. -/
def extentEnd (node : Node) : Node :=
  match node.child? "block" with
  | some _ => ((node.child? "arguments").or (node.child? "method")).getD node
  | none => node

/-- The assignment that a node is the left side of. -/
def assignment? (parent : Option Node) (node : Node) : Option Node :=
  parent.filter fun parent => parent.ownKind = "assignment" ∧ node.isField "left"

/-- Turns the reference of an assignment's left side into that of the setter. -/
def setterReference (source : Source) (assignment : Node) (reference : Reference) :
    Except WalkFault Reference := do
  let value ← readOptional (text source) (assignment.child? "right")
  let whole ← assignment.text source
  return { reference with
    name := reference.name ++ "="
    arguments := (value.map fun text => [text]).or reference.arguments
    span := assignment.spanTo source assignment
    text := whole }

/-- The reference of a `call` node; `none` for a call of the parent's method. -/
def callReference (source : Source) (parent : Option Node) (node : Node) :
    Except WalkFault (Option Reference) := do
  match ← node.calledName source with
  | none => return none
  | some name =>
    let qualifier ← readOptional (text source) (node.child? "receiver")
    let arguments ← readOptional (argumentTexts source) (node.child? "arguments")
    let text ← spanText source node node.extentEnd
    let reference : Reference :=
      { shape := .call, name, qualifier, arguments := arguments.join, text
        span := node.spanTo source node.extentEnd }
    match node.assignment? parent with
    | some assignment => (setterReference source assignment reference).map some
    | none => return some reference

/-! ## Backtick literals -/

/-- The text inside an interpolation, its delimiters left out. -/
def interpolationText (source : Source) (node : Node) : Except WalkFault String :=
  match node.operands.head?, node.operands.getLast? with
  | some first, some last => spanText source first last
  | _, _ => .ok ""

/-- The interpolations of a literal. -/
def interpolations (node : Node) : List Node :=
  node.children.filter fun child => child.info.named && child.kind == "interpolation"

/-- The reference of a `subshell` node. -/
def commandReference (source : Source) (node : Node) : Except WalkFault Reference := do
  let segments ← node.interpolations.mapM (interpolationText source)
  let text ← node.text source
  return { shape := .inlineExecution, name := commandName, qualifier := none, text
           arguments := if segments.isEmpty then none else some segments
           span := node.spanTo source node }

/-! ## Identifiers -/

/-- The reference of an identifier's text that nothing binds. -/
def bareReference (source : Source) (node : Node) (name : String) : Reference where
  shape := .call
  name := name
  qualifier := none
  arguments := none
  span := node.spanTo source node
  text := name

end Node
end CallSift

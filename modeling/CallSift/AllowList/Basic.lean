/-!
# Allow-lists

An allow-list names the interfaces whose calls are wanted. Lists are shared with
tools for other languages, so entries of kinds that never match a call are kept
and ignored.
-/
namespace CallSift

/-- What an entry or a record refers to. Only `functionDeclRefExpr` matches calls. -/
inductive ReferenceKind where
  | functionDeclRefExpr
  | functionDecl
  | invokeExpr
  | newExpr
  | castExpr
  | instanceOfExpr
  | newArrayExpr
  | newMultiArrayExpr
  deriving DecidableEq, Repr

/-- One interface. -/
structure ApiEntry where
  kind : ReferenceKind
  name : String
  baseType : Option String
  fullName : Option String
  id : Option Int32
  deriving DecidableEq, Repr

namespace ApiEntry

/-- The base type; an empty one counts as absent. -/
def base (entry : ApiEntry) : Option String := entry.baseType.filter (· ≠ "")

def isQualified (entry : ApiEntry) : Bool := entry.base.isSome

/-- The entry's own full name if it has one, else base type and name joined by a dot, else
the name. -/
def qualifiedName (entry : ApiEntry) : String :=
  match entry.fullName.filter (· ≠ "") with
  | some fullName => fullName
  | none =>
    match entry.base with
    | some base => base ++ "." ++ entry.name
    | none => entry.name

end ApiEntry

structure AllowList where
  apis : List ApiEntry
  /-- Match by name alone, whatever the receiver. -/
  funcOnly : Bool
  /-- Asks for feature data, which is not collected here. -/
  saveFeature : Bool
  smtFormula : Option String
  deriving DecidableEq, Repr

namespace AllowList

/-- The entries that match calls. -/
def callEntries (list : AllowList) : List ApiEntry :=
  list.apis.filter fun entry => entry.kind = .functionDeclRefExpr

end AllowList
end CallSift

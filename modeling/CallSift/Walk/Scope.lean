/-!
# Local variables in sight

A walk keeps a stack of frames, innermost first. Definitions, classes and
modules open a frame that hides all others; blocks and lambdas open one that
sees its surroundings. A name is bound when a frame in sight holds it.
-/
namespace CallSift

inductive ScopeKind where
  /-- Nothing outside is in sight. -/
  | fresh
  /-- The surrounding frame stays in sight. -/
  | inheriting
  deriving DecidableEq, Repr

namespace ScopeKind

/-- How a node of the given kind opens a scope, if it opens one. -/
def of? (kind : String) : Option ScopeKind :=
  if kind ∈ ["method", "singleton_method", "class", "module", "singleton_class"] then some .fresh
  else if kind ∈ ["block", "do_block", "lambda"] then some .inheriting
  else none

end ScopeKind

structure Frame where
  kind : ScopeKind
  names : List String
  deriving DecidableEq, Repr

/-- The open frames, innermost first. -/
abbrev Scopes := List Frame

namespace Scopes

/-- The frame of the whole source. -/
def top : Scopes := [⟨.fresh, []⟩]

def enter (scopes : Scopes) (kind : ScopeKind) : Scopes := ⟨kind, []⟩ :: scopes

def leave (scopes : Scopes) : Scopes := scopes.tail

/-- Binds a name in the innermost frame. -/
def declare (scopes : Scopes) (name : String) : Scopes :=
  match scopes with
  | frame :: outer => { frame with names := name :: frame.names } :: outer
  | [] => []

/-- Some frame in sight holds the name. -/
def binds (name : String) : Scopes → Bool
  | [] => false
  | frame :: outer => frame.names.contains name || (frame.kind == .inheriting && binds name outer)

end Scopes
end CallSift

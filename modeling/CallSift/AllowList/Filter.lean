import CallSift.AllowList.Basic
import CallSift.Reference

/-!
# Choosing references

A filter is what an allow-list comes to: a set of keys. A reference passes when
its own key is among them; without an allow-list everything passes.

By default a key is a full name. When names alone count, the key of a name is
the name, with a dot before it when there is a receiver: an unqualified entry
wants both keys, a qualified one only the second.
-/
namespace CallSift

structure Filter where
  /-- The wanted keys; absent when everything passes. -/
  keys : Option (List String)
  funcOnly : Bool
  deriving DecidableEq, Repr

namespace Filter

def passThrough : Filter := ⟨none, false⟩

/-- The keys that an entry wants. -/
def entryKeys (funcOnly : Bool) (entry : ApiEntry) : List String :=
  if funcOnly then
    if entry.isQualified then ["." ++ entry.name] else [entry.name, "." ++ entry.name]
  else [entry.qualifiedName]

def ofAllowList (list : AllowList) : Filter :=
  ⟨some (list.callEntries.flatMap (entryKeys list.funcOnly)), list.funcOnly⟩

def ofAllowList? (list : Option AllowList) : Filter :=
  match list with
  | some list => ofAllowList list
  | none => passThrough

def isPassThrough (filter : Filter) : Bool := filter.keys.isNone

/-- The key under which a name with its receiver is looked up. An empty receiver counts as
none when names alone count. -/
def lookupKey (funcOnly : Bool) (qualifier : Option String) (name : String) : String :=
  if funcOnly then
    match qualifier with
    | none | some "" => name
    | some _ => "." ++ name
  else fullName qualifier name

def acceptsName (filter : Filter) (qualifier : Option String) (name : String) : Bool :=
  match filter.keys with
  | none => true
  | some keys => keys.contains (lookupKey filter.funcOnly qualifier name)

def accepts (filter : Filter) (reference : Reference) : Bool :=
  filter.acceptsName reference.qualifier reference.name

end Filter
end CallSift

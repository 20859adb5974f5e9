import CallSift.Json.Value

/-!
# Tables of TOML

A document is put together from headers and from keys with values. A table is
made by its header, by a longer header that leads through it, or by a dotted key
that does; how it was made decides what may still be added.

* `Table.add` adds a key with its value: through tables made by dotted keys only.
* `Table.addTable` and `Table.addItem` add what stands under a header.
* `Table.toValue` is the finished document.
-/
namespace CallSift.Toml

open Json (Value)

/-- How a table came to be. -/
inductive Making where
  /-- By its own header, or as the whole document. -/
  | header
  /-- By a longer header. -/
  | longerHeader
  /-- By a dotted key. -/
  | dottedKey
  deriving DecidableEq, Repr

mutual
inductive Item where
  | value (value : Value)
  | table (table : Table)
  /-- Tables under one header with double brackets, latest first. -/
  | tables (last : Table) (before : List Table)
inductive Table where
  | mk (making : Making) (members : List (String × Item))
end

namespace Table

def making : Table → Making
  | mk making _ => making

def members : Table → List (String × Item)
  | mk _ members => members

def get? (table : Table) (name : String) : Option Item := table.members.lookup name

/-- Gives a member a new item; a new member comes last. -/
def set (table : Table) (name : String) (item : Item) : Table :=
  if (table.get? name).isSome then
    mk table.making (table.members.map fun m => if m.1 = name then (name, item) else m)
  else mk table.making (table.members ++ [(name, item)])

/-! ## Keys -/

/-- Adds a key with its value. A dotted key leads through tables that dotted keys made, and ends in
one. -/
def add (table : Table) (value : Value) : List String → Option Table
  | [] => none
  | [name] =>
    match table.get? name with
    | none => some (table.set name (.value value))
    | some _ => none
  | name :: rest =>
    match table.get? name with
    | none => (add (mk .dottedKey []) value rest).map fun inner => table.set name (.table inner)
    | some (.table inner) =>
      if inner.making = .dottedKey ∨ (inner.making = .longerHeader ∧ 2 ≤ rest.length) then
        (add inner value rest).map fun inner => table.set name (.table inner)
      else none
    | some (.tables last before) =>
      if 2 ≤ rest.length then
        (add last value rest).map fun last => table.set name (.tables last before)
      else none
    | some (.value _) => none

def addAll (table : Table) (pairs : List (List String × Value)) : Option Table :=
  pairs.foldlM (fun table pair => table.add pair.2 pair.1) table

/-! ## Headers -/

/-- Changes the table that the names of a header lead to. -/
def change (table : Table) (update : Table → Option Table) : List String → Option Table
  | [] => update table
  | name :: rest =>
    match table.get? name with
    | none => (change (mk .longerHeader []) update rest).map fun inner =>
        table.set name (.table inner)
    | some (.table inner) => (change inner update rest).map fun inner =>
        table.set name (.table inner)
    | some (.tables last before) => (change last update rest).map fun last =>
        table.set name (.tables last before)
    | some (.value _) => none

/-- Makes the table of a header, which at most longer headers made before. -/
def addTable (table : Table) (key : List String) (pairs : List (List String × Value)) :
    Option Table :=
  match key.getLast? with
  | none => none
  | some name =>
    table.change (fun parent =>
      match parent.get? name with
      | none => ((mk .header []).addAll pairs).map fun inner => parent.set name (.table inner)
      | some (.table (mk .longerHeader members)) =>
        ((mk .header members).addAll pairs).map fun inner => parent.set name (.table inner)
      | some _ => none) key.dropLast

/-- Adds a table to those of a header with double brackets. -/
def addItem (table : Table) (key : List String) (pairs : List (List String × Value)) :
    Option Table :=
  match key.getLast? with
  | none => none
  | some name =>
    table.change (fun parent =>
      ((mk .header []).addAll pairs).bind fun inner =>
        match parent.get? name with
        | none => some (parent.set name (.tables inner []))
        | some (.tables last before) => some (parent.set name (.tables inner (last :: before)))
        | some _ => none) key.dropLast

/-! ## The document -/

mutual
def toValue : Table → Value
  | mk _ members => .object (memberValues members)
def itemValue : Item → Value
  | .value value => value
  | .table table => toValue table
  | .tables last before => .array ((toValue last :: tableValues before).reverse)
def tableValues : List Table → List Value
  | [] => []
  | table :: rest => toValue table :: tableValues rest
def memberValues : List (String × Item) → List (String × Value)
  | [] => []
  | (name, item) :: rest => (name, itemValue item) :: memberValues rest
end

end Table
end CallSift.Toml

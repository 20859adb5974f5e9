import CallSift.Bytes
import CallSift.Text

/-!
# Paths

A path is kept as it was written, in bytes, and read as a list of components.
Repeated and trailing slashes and dots between slashes are no components, a dot
in front of a relative path is one.

* `Path.components` and `Path.ofComponents` lead from the bytes to the components
  and back.
* `Path.text` is how a path is shown.
* `Path.push` appends a path; an absolute one takes the place of the whole.
* `Path.normalize` folds `..` into the component before it, without looking at
  any file system.
* `Path.relativeTo` leads from one path to another.
-/
namespace CallSift

structure Path where
  bytes : Bytes
  deriving DecidableEq, Repr

inductive Component where
  | root
  | current
  | parent
  | normal (name : Bytes)
  deriving DecidableEq, Repr

namespace Component

def bytes : Component → Bytes
  | root => "/"
  | current => "."
  | parent => ".."
  | normal name => name

def name? : Component → Option Bytes
  | normal name => some name
  | _ => none

/-- The component that stands between two slashes, unless it stands for nothing. -/
def ofPiece? (piece : List UInt8) : Option Component :=
  if piece = [] ∨ piece = [Bytes.dot] then none
  else if piece = [Bytes.dot, Bytes.dot] then some parent
  else some (normal ⟨piece⟩)

end Component

namespace Path

/-- The path as it is shown. -/
def text (path : Path) : String := path.bytes.text

def isAbsolute (path : Path) : Bool := path.bytes.toList.head? = some Bytes.slash

/-- The component in front of the first slash. -/
def leading (piece : List UInt8) : List Component :=
  if piece = [Bytes.dot] then [.current] else (Component.ofPiece? piece).toList

/-- The components of bytes cut at their slashes: an empty piece in front of a slash is the root. -/
def componentsOf : List (List UInt8) → List Component
  | [] => []
  | [] :: [] => []
  | [] :: rest => .root :: rest.filterMap Component.ofPiece?
  | piece :: rest => leading piece ++ rest.filterMap Component.ofPiece?

def components (path : Path) : List Component :=
  componentsOf (Text.splitAt Bytes.slash path.bytes.toList)

/-! ## Building -/

/-- Appends a path behind a slash. -/
def push (base path : Path) : Path :=
  if path.isAbsolute then path
  else if base.bytes = .empty ∨ base.bytes.toList.getLast? = some Bytes.slash then
    ⟨base.bytes ++ path.bytes⟩
  else ⟨base.bytes ++ "/" ++ path.bytes⟩

/-- The path made by appending one component after another. -/
def ofComponents (components : List Component) : Path :=
  components.foldl (fun path component => path.push ⟨component.bytes⟩) ⟨.empty⟩

/-! ## Parts -/

/-- The components without the last one; the root and the empty path have none such. -/
def parent? (components : List Component) : Option (List Component) :=
  match components.getLast? with
  | none | some .root => none
  | some _ => some components.dropLast

/-- The last component, if it is a name. -/
def fileNameOf? (components : List Component) : Option Bytes :=
  components.getLast?.bind Component.name?

def fileName? (path : Path) : Option Bytes := fileNameOf? path.components

/-- What follows the last dot of a file name, unless the name has no other dot and begins with
it. -/
def extensionOf? (name : Bytes) : Option Bytes :=
  match (Text.splitAt Bytes.dot name.toList).reverse with
  | [] | [_] | [_, []] => none
  | last :: _ => some ⟨last⟩

def extension? (path : Path) : Option Bytes := path.fileName?.bind extensionOf?

/-! ## Normal form -/

/-- Takes one more component behind those kept: `..` removes the last one, if there is one that
can be removed, and stays otherwise. -/
def fold (kept : List Component) : Component → List Component
  | .current => kept
  | .parent => (parent? kept).getD (kept ++ [.parent])
  | .root => [.root]
  | .normal name => kept ++ [.normal name]

def normalize (components : List Component) : List Component := components.foldl fold []

/-- The components without a dot in front. -/
def withoutCurrent : List Component → List Component
  | .current :: rest => rest
  | components => components

/-- The components of a path taken from a working directory, in normal form. The empty path
has none. -/
def absolute? (workingDirectory path : Path) : Option (List Component) :=
  if path.bytes = .empty then none
  else if path.isAbsolute then some (normalize path.components)
  else some (normalize (workingDirectory.components ++ withoutCurrent path.components))

/-! ## From one path to another -/

/-- Drops the components that two lists have in common in front. -/
def dropCommon : List Component → List Component → List Component × List Component
  | a :: path, b :: base => if a = b then dropCommon path base else (a :: path, b :: base)
  | path, base => (path, base)

/-- Climbs out of what `base` has beyond the common part, and descends to `path`. -/
def relativeTo (path base : List Component) : Path :=
  let (down, up) := dropCommon path base
  ofComponents (up.map (fun _ => .parent) ++ down)

end Path
end CallSift

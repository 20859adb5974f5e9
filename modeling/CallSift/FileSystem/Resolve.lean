import CallSift.Fault.Cause
import CallSift.FileSystem.Basic
import CallSift.Path.Basic

/-!
# Finding what a path names

A path is followed name by name from the root or from the working directory,
through directories that may be entered. `..` leads to the directory above the one
reached, and a symbolic link is replaced by the path it holds, at most forty times.

* `FileSystem.follow` follows names up to the first link.
* `FileSystem.locate` follows links as well.
* `FileSystem.resolve` takes a path.
-/
namespace CallSift

/-- Where a path leads: to an entry, or to a free place in a directory. -/
inductive Place where
  | found (location : Location) (entry : Entry)
  | missing (location : Location)

/-- How far names lead without following a link. -/
inductive Stop where
  | place (place : Place)
  | fault (error : OsError)
  /-- At a link in a directory, with the names still to follow. -/
  | link (directory : Location) (target : Bytes) (rest : List Bytes)

/-- The names between the slashes of a path. -/
def Path.names (path : Path) : List Bytes :=
  ((Text.splitAt Bytes.slash path.bytes.toList).filter (· ≠ [])).map Bytes.ofList

/-- A slash at the end, which asks for a directory. -/
def Path.endsInSlash (path : Path) : Bool := path.bytes.toList.getLast? = some Bytes.slash

/-- The names to follow: a slash at the end does what a dot does. -/
def Path.steps (path : Path) : List Bytes :=
  if path.endsInSlash then path.names ++ [("." : Bytes)] else path.names

/-- Longest name of a directory entry, in bytes. -/
def nameLimit : Nat := 255

/-- Bytes of a path must stay below this. -/
def pathLimit : Nat := 4096

/-- Most links that one path may lead through. -/
def linkLimit : Nat := 40

namespace FileSystem

/-- Follows names from a directory. A link is left alone in the last place unless `last` asks to
follow it. -/
def follow (fs : FileSystem) (last : Bool) (here : Location) : List Bytes → Stop
  | [] => .place (.found here (.directory (fs.permissionsAt here)))
  | name :: rest =>
    if !(fs.permissionsAt here).enter then .fault .permissionDenied
    else if name = "." then follow fs last here rest
    else if name = ".." then follow fs last here.dropLast rest
    else if nameLimit < name.size then .fault .nameTooLong
    else
      let location := here ++ [name]
      match fs.get? location with
      | none => if rest.isEmpty then .place (.missing location) else .fault .notFound
      | some (.directory _) => follow fs last location rest
      | some (.file content permissions) =>
        if rest.isEmpty then .place (.found location (.file content permissions))
        else .fault .notDirectory
      | some (.link target) =>
        if rest.isEmpty ∧ !last then .place (.found location (.link target))
        else .link here target rest

/-- Follows names from a directory, through as many links as `links` allows. -/
def locate (fs : FileSystem) (last : Bool) (links : Nat) (here : Location) (names : List Bytes) :
    Except OsError Place :=
  match fs.follow last here names with
  | .place place => .ok place
  | .fault error => .error error
  | .link directory target rest =>
    match links with
    | 0 => .error .tooManyLinks
    | links + 1 =>
      if target = .empty then .error .notFound
      else
        let path : Path := ⟨target⟩
        locate fs last links (if path.isAbsolute then [] else directory) (path.steps ++ rest)

/-- Follows names behind those of the working directory, unless the path is absolute. -/
def locateFrom (fs : FileSystem) (last : Bool) (workingDirectory path : Path)
    (names : List Bytes) : Except OsError Place :=
  if path.bytes = .empty then .error .notFound
  else if pathLimit ≤ path.bytes.size then .error .nameTooLong
  else if path.isAbsolute then fs.locate last linkLimit [] names
  else fs.locate last linkLimit [] (workingDirectory.steps ++ names)

/-- What a path names, seen from a working directory. -/
def resolve (fs : FileSystem) (last : Bool) (workingDirectory path : Path) :
    Except OsError Place :=
  fs.locateFrom last workingDirectory path path.steps

/-! ## Asking -/

/-- The location and the entry that a path names, links followed. -/
def stat (fs : FileSystem) (workingDirectory path : Path) : Except OsError (Location × Entry) :=
  match fs.resolve true workingDirectory path with
  | .ok (.found location entry) => .ok (location, entry)
  | .ok (.missing _) => .error .notFound
  | .error error => .error error

def exists? (fs : FileSystem) (workingDirectory path : Path) : Bool :=
  (fs.stat workingDirectory path).isOk

/-- The location of the directory that a path names. -/
def directory? (fs : FileSystem) (workingDirectory path : Path) : Option Location :=
  match fs.stat workingDirectory path with
  | .ok (location, .directory _) => some location
  | _ => none

def isFile (fs : FileSystem) (workingDirectory path : Path) : Bool :=
  match fs.stat workingDirectory path with
  | .ok (_, .file ..) => true
  | _ => false

end FileSystem
end CallSift

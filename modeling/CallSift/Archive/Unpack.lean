import CallSift.Archive.Gzip
import CallSift.Archive.Kind
import CallSift.Archive.Tar
import CallSift.FileSystem.Access
import CallSift.Setting

/-!
# Unpacking

The members of an archive are put below a target directory, in order. Directories
with a type of their own come last, those inside others first, because a member
brings its permissions with it. No member is put outside the target: names with
`..` are passed over, and links are followed only while they stay inside.

* `ArchiveKind.membersOf` finds the members that an archive file holds.
* `Unpacking.run` puts members below a target.
* `FileSystem.unpack` unpacks an archive into a directory of the run's own.
-/
namespace CallSift

/-- A file system under change, and the damage that stopped the change, if any. -/
structure Unpacking where
  fileSystem : FileSystem
  damage : Option ArchiveDamage

namespace Unpacking

def done (fs : FileSystem) : Unpacking := ⟨fs, none⟩

def stopped (fs : FileSystem) (damage : ArchiveDamage) : Unpacking := ⟨fs, some damage⟩

/-- The names of a member below the target. Nothing is done for a member whose name has a `..`. -/
def names? (name : Path) : Option (List Bytes) :=
  if .parent ∈ name.components then none else some (name.components.filterMap Component.name?)

/-- Bytes of a location written as a path. -/
def pathLength (location : Location) : Nat :=
  location.foldl (fun length name => length + name.size + 1) 0

/-- Bytes that no file system takes as a name. -/
def isRefused (name : Bytes) : Bool := name.toList.contains 0

/-- Makes the directories that names lead through, and answers the last one. A link must lead to
a directory inside the target. -/
def makeParents (target : Location) (fs : FileSystem) (here : Location) :
    List Bytes → FileSystem × Option Location
  | [] => (fs, some here)
  | name :: rest =>
    match fs.locate true linkLimit here [name] with
    | .ok (.found location (.directory _)) =>
      if target.isPrefixOf location then makeParents target fs location rest else (fs, none)
    | .ok (.missing location) =>
      if location = here ++ [name] then
        match fs.make location (.directory .all) with
        | .ok fs => makeParents target fs location rest
        | .error _ => (fs, none)
      else (fs, none)
    | _ => (fs, none)

/-- The entry that a hard link shares: what it names must lie inside the target. -/
def shared? (target : Location) (fs : FileSystem) (source : Path) : Option Entry :=
  let base := if source.isAbsolute then [] else target
  match fs.locate true linkLimit base source.steps, fs.locate false linkLimit base source.steps with
  | .ok (.found _ _), .ok (.found _ (.directory _)) => none
  | .ok (.found location _), .ok (.found _ entry) =>
    if target.isPrefixOf location then some entry else none
  | _, _ => none

/-- Puts an entry into a place, instead of a file or a link that stands there. -/
def putEntry (fs : FileSystem) (place : Place) (entry : Entry) : Unpacking :=
  match place with
  | .found _ (.directory _) => stopped fs .unwritable
  | .found location _ | .missing location =>
    match fs.make location entry with
    | .ok fs => done fs
    | .error _ => stopped fs .unwritable

/-- Puts a file into a place. -/
def putFile (fs : FileSystem) (place : Place) (permissions : Permissions) (content : ByteArray)
    (complete : Bool) : Unpacking :=
  match putEntry fs place (.file content permissions) with
  | ⟨fs, none⟩ => ⟨fs, if complete then none else some .truncated⟩
  | stopped => stopped

/-- Puts a directory into a place, or gives new permissions to one that is there. -/
def putDirectory (fs : FileSystem) (place : Place) (permissions : Option Permissions) :
    Unpacking :=
  match place with
  | .found location (.directory before) =>
    done (fs.insert location (.directory (permissions.getD before)))
  | .found _ _ => stopped fs .unwritable
  | .missing _ => putEntry fs place (.directory (permissions.getD .all))

/-- Puts a symbolic link into a place. -/
def putLink (fs : FileSystem) (place : Place) (link : Bytes) : Unpacking :=
  if link = .empty ∨ isRefused link ∨ pathLimit ≤ link.size then stopped fs .badLink
  else putEntry fs place (.link link)

/-- Puts a hard link into a free place. -/
def putHardLink (target : Location) (fs : FileSystem) (place : Place) (link : Bytes) :
    Unpacking :=
  if link = .empty ∨ isRefused link then stopped fs .badLink
  else
    match place, shared? target fs ⟨link⟩ with
    | .missing _, some entry => putEntry fs place entry
    | .found _ _, some _ => stopped fs .unwritable
    | _, none => stopped fs .badLink

/-- Puts a member into a place. A member without a mode gets all permissions. -/
def putAt (target : Location) (fs : FileSystem) (place : Place) (member : Tar.Member) :
    Unpacking :=
  let permissions := member.mode.map Permissions.ofMode
  match member.role with
  | .file => putFile fs place (permissions.getD .all) member.content member.complete
  | .directory _ => putDirectory fs place permissions
  | .link (some link) => putLink fs place link
  | .hardLink (some link) => putHardLink target fs place link
  | .link none | .hardLink none => stopped fs .badLink
  | .description => done fs

/-- Puts a member into a directory under a name. -/
def putIn (target : Location) (fs : FileSystem) (parent : Location) (name : Bytes)
    (member : Tar.Member) : Unpacking :=
  if member.role = .description then done fs
  else
    match fs.locate false linkLimit parent [name] with
    | .ok place => putAt target fs place member
    | .error _ => stopped fs .unwritable

/-- Puts a member below the target. -/
def put (target : Location) (fs : FileSystem) (member : Tar.Member) : Unpacking :=
  match names? member.name with
  | none => done fs
  | some names =>
    match names.getLast? with
    | none => done fs
    | some name =>
      if names.any isRefused ∨ pathLimit ≤ pathLength (target ++ names) then
        stopped fs .unwritable
      else
        match makeParents target fs target names.dropLast with
        | (fs, none) => stopped fs .unwritable
        | (fs, some parent) => putIn target fs parent name member

/-- Puts members below the target, up to the first that cannot be put. -/
def putAll (target : Location) (fs : FileSystem) : List Tar.Member → Unpacking
  | [] => done fs
  | member :: rest =>
    match put target fs member with
    | ⟨fs, none⟩ => putAll target fs rest
    | stopped => stopped

/-- The member is made when all others are in their places. -/
def isLate (member : Tar.Member) : Bool := member.role = .directory true

/-- The members that are made last, in the reverse order of their names, so that no directory gets
its permissions before those inside it are made. -/
def late (members : List Tar.Member) : List Tar.Member :=
  (members.filter isLate).mergeSort fun a b =>
    !decide (Location.NameBefore a.name.bytes b.name.bytes)

/-- Puts the members of a tar file below the target. -/
def run (target : Location) (fs : FileSystem) (members : Tar.Members) : Unpacking :=
  match putAll target fs (members.members.filter (!isLate ·)) with
  | ⟨fs, none⟩ =>
    match members.fault with
    | some damage => stopped fs damage
    | none => putAll target fs (late members.members)
  | stopped => stopped

end Unpacking

namespace ArchiveKind

/-- The member that holds the packaged sources of a gem. -/
def isDataMember (member : Tar.Member) : Bool :=
  member.name.components = [.normal gemDataMember]

/-- The members that an archive holds: those of a gem are in its first data member, and what
follows that member does not matter. -/
def membersOf (kind : ArchiveKind) (file : ByteArray) : Except UnpackCause Tar.Members :=
  match kind with
  | tarGz => .ok (Tar.members (Gzip.decompress file))
  | gem =>
    let outer := Tar.members (.ofBytes file)
    match outer.members.find? isDataMember, outer.fault with
    | some data, _ => .ok (Tar.members (Gzip.decompress data.content))
    | none, some damage => .error (.damaged damage)
    | none, none => .error .noDataMember

/-- Why a file cannot be read. Only the reader of a gem is told of a directory. -/
def readingCause (kind : ArchiveKind) (error : OsError) : UnpackCause :=
  if kind = tarGz ∧ error = .isDirectory then .damaged .truncated else .io (.os error)

end ArchiveKind

namespace FileSystem

/-- Unpacks an archive below a target that stands ready. -/
def unpackInto (fs : FileSystem) (setting : Setting) (path : Path) (kind : ArchiveKind)
    (target : Location) : FileSystem × Except UnpackCause Unit :=
  match fs.read setting.workingDirectory path with
  | .error error => (fs, .error (kind.readingCause error))
  | .ok file =>
    match kind.membersOf file with
    | .error cause => (fs, .error cause)
    | .ok members =>
      match Unpacking.run target fs members with
      | ⟨fs, none⟩ => (fs, .ok ())
      | ⟨fs, some damage⟩ => (fs, .error (.damaged damage))

/-- Unpacks an archive into a directory of its own, which is gone again if that fails. -/
def unpack (fs : FileSystem) (setting : Setting) (path : Path) (kind : ArchiveKind) :
    FileSystem × Except UnpackCause OwnDirectory :=
  match fs.freePlace? setting kind.directoryStart with
  | none => (fs, .error (.damaged .noDirectory))
  | some directory =>
    match (fs.enter directory).unpackInto setting path kind directory.location with
    | (fs, .ok ()) => (fs, .ok directory)
    | (fs, .error cause) => (fs.leave directory, .error cause)

end FileSystem
end CallSift

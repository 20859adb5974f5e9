import CallSift.FileSystem.Resolve

/-!
# Where a run takes place

Relative paths start at the working directory. What a run needs only for itself
goes into a directory of its own below the temporary directory, at a place where
nothing stood before, and is taken away when the run is over, if it can be.
-/
namespace CallSift

structure Setting where
  workingDirectory : Path
  temporaryDirectory : Path
  /-- Endings for the names of new directories, in the order in which they are tried. -/
  nameEndings : List Bytes

/-- A directory that a run made for itself. -/
structure OwnDirectory where
  path : Path
  location : Location
  deriving DecidableEq, Repr

namespace FileSystem

/-- A free place for a directory whose name begins in a given way, where one may be made. -/
def freePlace? (fs : FileSystem) (setting : Setting) (beginning : Bytes) :
    Option OwnDirectory :=
  setting.nameEndings.findSome? fun ending =>
    let path := setting.temporaryDirectory.push ⟨beginning ++ ending⟩
    match fs.resolve false setting.workingDirectory path with
    | .ok (.missing location) =>
      if fs.occupies location || !(fs.permissionsAt location.dropLast).canChange then none
      else some ⟨path, location⟩
    | _ => none

/-- Makes a directory for a run itself. -/
def enter (fs : FileSystem) (directory : OwnDirectory) : FileSystem :=
  fs.insert directory.location (.directory .all)

/-- Takes the directory away with all that is in it, unless something in it cannot be taken away. -/
def leave (fs : FileSystem) (directory : OwnDirectory) : FileSystem :=
  if fs.isRemovable directory.location then fs.eraseBelow directory.location else fs

end FileSystem
end CallSift

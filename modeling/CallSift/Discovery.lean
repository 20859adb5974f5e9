import CallSift.Fault.Basic
import CallSift.FileSystem.Resolve
import CallSift.Log
import CallSift.Record.Basic

/-!
# Finding the files of a run

A directory stands for all files below it, in the order of their names; those
that look like sources are the inputs. Any other path stands for itself, whatever
its name. Links below a directory are passed over, and so are directories that
cannot be listed.

* `FileSystem.discover` lists the files under an input.
* `InputSet.events` is what the log says of them.
-/
namespace CallSift

namespace Language

/-- A file counts as a source by its extension or by its name. -/
def isSource (language : Language) (file : Path) : Bool :=
  file.extension?.any (fun extension => language.extensions.any (extension = Bytes.ofText ·)) ||
    file.fileName?.any fun name => language.buildScripts.any (name = Bytes.ofText ·)

end Language

structure InputSet where
  /-- The input in normal form. -/
  input : Path
  /-- What reported paths are relative to. -/
  root : Path
  /-- The files to analyze, in order. -/
  inputs : List Path
  /-- All files, in order. -/
  files : List Path
  /-- The directories that cannot be listed, in order, and why. -/
  unlisted : List (Path × OsError)
  deriving DecidableEq, Repr

namespace InputSet

/-- Spellings of one path do not matter. -/
def isInput (set : InputSet) (path : Path) : Bool :=
  set.inputs.any (·.components = path.components)

def events (set : InputSet) (language : Language) : List LogEvent :=
  set.unlisted.map (fun (directory, error) => .unlisted set.input directory error) ++
    (if set.inputs.isEmpty then [.noInputs set.input language] else []) ++
    [.discovered set.inputs.length set.files.length set.input set.root]

end InputSet

namespace FileSystem

/-- A path with names appended. -/
def below (directory : Path) (names : Location) : Path :=
  names.foldl (fun path name => path.push ⟨name⟩) directory

/-- A walk comes by what has such names below a directory: the path of the directory around it is
not too long to be listed. -/
def isWalked (directory : Path) (names : Location) : Bool :=
  (below directory names.dropLast).bytes.size < pathLimit

/-- Why a walk cannot list a directory that it comes by. -/
def unlisted? (directory : Path) (names : Location) (mayList : Bool) : Option (Path × OsError) :=
  let path := below directory names
  if !isWalked directory names then none
  else if pathLimit ≤ path.bytes.size then some (path, .nameTooLong)
  else if mayList then none
  else some (path, .permissionDenied)

/-- The files that a path in normal form stands for, and the root to report them against. -/
def enumerate (fs : FileSystem) (workingDirectory : Path) (language : Language)
    (components : List Component) : InputSet :=
  let input := Path.ofComponents components
  match fs.directory? workingDirectory input with
  | some location =>
    let files := ((fs.filesBelow location).filter (isWalked input)).map (below input)
    { input, root := input, inputs := files.filter language.isSource, files
      unlisted := (fs.directoriesBelow location).filterMap fun (names, mayList) =>
        unlisted? input names mayList }
  | none =>
    let root := ((Path.parent? components).map Path.ofComponents).getD input
    { input, root, inputs := [input], files := [input], unlisted := [] }

/-- Lists the files under an input. The input must exist before its path is brought to normal
form; a root may be given instead of the usual one. -/
def discover (fs : FileSystem) (workingDirectory : Path) (language : Language) (input : Path)
    (root : Option Path) : Except Fault InputSet :=
  if fs.exists? workingDirectory input then
    match Path.absolute? workingDirectory input with
    | none => .error (.inputNotFound input)
    | some components =>
      let set := fs.enumerate workingDirectory language components
      match root with
      | none => .ok set
      | some root =>
        match Path.absolute? workingDirectory root with
        | none => .error (.inputNotFound root)
        | some components => .ok { set with root := Path.ofComponents components }
  else .error (.inputNotFound input)

end FileSystem
end CallSift

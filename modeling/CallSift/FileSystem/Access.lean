import CallSift.FileSystem.Resolve

/-!
# Reading and writing

* `read` and `readText` answer the content of the file that a path names.
* `make` puts an entry where nothing stands.
* `write` puts a content into the file that a path names, or into a new file.
* `makeDirectories` makes the directories that names lead through.
* `remove` takes away what a path names.
-/
namespace CallSift.FileSystem

/-- The bytes of the file that a path names. -/
def read (fs : FileSystem) (workingDirectory path : Path) : Except OsError ByteArray :=
  match fs.stat workingDirectory path with
  | .ok (_, entry) =>
    if entry.permissions.read then
      match entry with
      | .file content _ => .ok content
      | _ => .error .isDirectory
    else .error .permissionDenied
  | .error error => .error error

/-- The text of the file that a path names. -/
def readText (fs : FileSystem) (workingDirectory path : Path) : Except IoCause String :=
  match fs.read workingDirectory path with
  | .error error => .error (.os error)
  | .ok content =>
    match String.fromUTF8? content with
    | some text => .ok text
    | none => .error .notText

/-- A path whose last name has a slash behind it: no file can be made under such a path. -/
def namesDirectory (path : Path) : Bool :=
  path.endsInSlash && path.names.getLast?.any fun name : Bytes => name ≠ "." && name ≠ ".."

/-- Puts an entry where nothing stands; the directory around it must be one that may be changed. -/
def make (fs : FileSystem) (location : Location) (entry : Entry) : Except OsError FileSystem :=
  if (fs.permissionsAt location.dropLast).canChange then .ok (fs.insert location entry)
  else .error .permissionDenied

/-- Puts a content into the file that a path names, which is made if there is none. -/
def write (fs : FileSystem) (workingDirectory path : Path) (content : ByteArray) :
    Except OsError FileSystem :=
  if namesDirectory path then
    match fs.locateFrom true workingDirectory path (path.names.dropLast ++ [("." : Bytes)]) with
    | .error error => .error error
    | .ok _ => .error .isDirectory
  else
    match fs.resolve true workingDirectory path with
    | .error error => .error error
    | .ok (.missing location) => fs.make location (.file content .all)
    | .ok (.found location (.file _ permissions)) =>
      if permissions.write then .ok (fs.insert location (.file content permissions))
      else .error .permissionDenied
    | .ok (.found _ _) => .error .isDirectory

/-- Makes the directories that names lead through from one that exists, and answers the last. -/
def makeDirectories (fs : FileSystem) (here : Location) :
    List Bytes → Except OsError (FileSystem × Location)
  | [] => .ok (fs, here)
  | name :: rest =>
    match fs.locate true linkLimit here [name] with
    | .ok (.found location (.directory _)) => makeDirectories fs location rest
    | .ok (.missing location) =>
      if location = here ++ [name] then do
        makeDirectories (← fs.make location (.directory .all)) location rest
      else .error .alreadyExists
    | .ok (.found _ _) => .error .alreadyExists
    | .error error => .error error

/-- Makes the directory that an absolute path names, and all that lead to it. -/
def makePath (fs : FileSystem) (path : Path) : Except OsError FileSystem :=
  (fs.makeDirectories [] path.names).map (·.1)

/-- Makes a symbolic link. -/
def makeLink (fs : FileSystem) (workingDirectory path : Path) (target : Bytes) :
    Except OsError FileSystem :=
  match fs.resolve false workingDirectory path with
  | .ok (.missing location) => fs.make location (.link target)
  | .ok (.found _ _) => .error .alreadyExists
  | .error error => .error error

/-- Takes away a file, a link, or a directory with all below it. -/
def remove (fs : FileSystem) (workingDirectory path : Path) : Except OsError FileSystem :=
  match fs.resolve false workingDirectory path with
  | .ok (.found location _) =>
    if (fs.permissionsAt location.dropLast).canChange && fs.isRemovable location then
      .ok (fs.eraseBelow location)
    else .error .permissionDenied
  | .ok (.missing _) => .error .notFound
  | .error error => .error error

end CallSift.FileSystem

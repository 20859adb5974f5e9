import CallSift.AllowList.Codec
import CallSift.FileSystem.Access

/-!
# Allow-lists in files

A file whose extension is `json`, in any mix of cases, holds an allow-list as
JSON; any other file holds it as TOML.
-/
namespace CallSift

/-- Why a file gives no allow-list. -/
inductive AllowListFault where
  | unreadable (path : Path)
  | malformed (path : Path)
  deriving DecidableEq, Repr

namespace AllowListFault

def message : AllowListFault → String
  | unreadable path => s!"Failed to read config file: {path.text}"
  | malformed path => s!"Failed to parse config file: {path.text}"

end AllowListFault

namespace AllowList

/-- A file holds JSON by its extension. -/
def isJson (path : Path) : Bool :=
  (path.extension?.bind Bytes.text?).any fun extension =>
    extension.toList.map Char.toLower = ['j', 's', 'o', 'n']

end AllowList

namespace FileSystem

def loadAllowList (fs : FileSystem) (workingDirectory path : Path) :
    Except AllowListFault AllowList :=
  match fs.readText workingDirectory path with
  | .error _ => .error (.unreadable path)
  | .ok text =>
    match if AllowList.isJson path then AllowList.ofJson? text else AllowList.ofToml? text with
    | some list => .ok list
    | none => .error (.malformed path)

end FileSystem
end CallSift

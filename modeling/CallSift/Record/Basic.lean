import CallSift.AllowList.Basic
import CallSift.Path.Basic
import CallSift.Reference

/-!
# Records

A record is a reference in the form in which it is handed on, with the file it
comes from. Records of one package, with the allow-list that chose them, are a
package result; a run writes exactly one.

* `FileInfo.of` places a file below a root.
* `Record.ofReference` makes the record of a reference, unless its extent ends
  before it begins.
-/
namespace CallSift

/-- Language of the analyzed sources. -/
inductive Language where
  | ruby
  deriving DecidableEq, Repr

namespace Language

/-- Extensions of source files. -/
def extensions : Language → List String
  | ruby => ["rb"]

/-- Names of build scripts, which are sources whatever their extension. -/
def buildScripts : Language → List String
  | ruby => ["Rakefile", "Gemfile"]

def name : Language → String
  | ruby => "Ruby"

end Language

/-- Where a file stands relative to the analyzed root. -/
structure FileInfo where
  filename : String
  /-- Directory of the file relative to the root. -/
  relpath : String
  /-- The file relative to the root. -/
  file : String
  /-- The root. -/
  directory : String
  deriving DecidableEq, Repr

namespace FileInfo

/-- A relative path as it is shown: a dot stands for the empty one. -/
def shown (path : Path) : String := if path.bytes = .empty then "." else path.text

/-- All that is said of a file is said as paths are shown. -/
def of (file root : Path) : FileInfo where
  filename := (file.fileName?.map Bytes.text).getD ""
  relpath := shown (Path.relativeTo ((Path.parent? file.components).getD []) root.components)
  file := shown (Path.relativeTo file.components root.components)
  directory := root.text

end FileInfo

structure SourceLocation where
  row : Nat
  column : Nat
  fileInfo : FileInfo
  deriving DecidableEq, Repr

structure SourceRange where
  start : SourceLocation
  stop : SourceLocation
  deriving DecidableEq, Repr

structure Record where
  kind : ReferenceKind
  name : String
  baseType : Option String
  fullName : String
  arguments : Option (List String)
  source : String
  range : SourceRange
  deriving DecidableEq, Repr

/-- An extent that is no range: it has no first line, or ends before it begins. -/
structure RangeFault where
  name : String
  span : Span
  deriving DecidableEq, Repr

namespace RangeFault

def message (fault : RangeFault) : String :=
  let span := fault.span
  s!"end {span.lastLine}:{span.lastColumn} precedes start {span.line}:{span.column} for " ++
    fault.name

end RangeFault

namespace Record

def ofReference (reference : Reference) (fileInfo : FileInfo) : Except RangeFault Record :=
  let span := reference.span
  if span.line = 0 ∨ ¬ span.Ordered then .error ⟨reference.fullName, span⟩
  else .ok
    { kind := .functionDeclRefExpr, name := reference.name, baseType := reference.qualifier
      fullName := reference.fullName, arguments := reference.arguments, source := reference.text
      range := ⟨⟨span.line, span.column, fileInfo⟩, ⟨span.lastLine, span.lastColumn, fileInfo⟩⟩ }

end Record

/-- What was found in one package. -/
structure PackageResult where
  name : String
  version : Option String
  language : Language
  allowList : Option AllowList
  records : List Record
  deriving DecidableEq, Repr

structure PackageResults where
  packages : List PackageResult
  deriving DecidableEq, Repr

/-- What a run says about one file. -/
structure FileComposition where
  name : String
  lines : Nat
  /-- The file is analyzed. -/
  native : Bool
  deriving DecidableEq, Repr

structure Composition where
  files : List FileComposition
  deriving DecidableEq, Repr

end CallSift

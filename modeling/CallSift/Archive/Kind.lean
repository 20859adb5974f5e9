import CallSift.Path.Basic

/-!
# Archives by name

A file is an archive by the suffix of its name, in any mix of cases. The rest of
the name is its stem. A name that is no text is no archive's.
-/
namespace CallSift

inductive ArchiveKind where
  /-- A tar file whose sources are in one compressed member. -/
  | gem
  /-- A compressed tar file. -/
  | tarGz
  deriving DecidableEq, Repr

namespace ArchiveKind

/-- A name ends in a suffix, whatever the case of its ASCII letters. -/
def endsIn (suffix name : String) : Bool :=
  suffix.toList.isSuffixOf (name.toList.map Char.toLower)

def ofName? (name : String) : Option ArchiveKind :=
  if endsIn ".gem" name then some .gem
  else if endsIn ".tar.gz" name || endsIn ".tgz" name then some .tarGz
  else none

def of? (path : Path) : Option ArchiveKind := (path.fileName?.bind Bytes.text?).bind ofName?

/-- The suffix of a name of this kind. -/
def suffix (kind : ArchiveKind) (name : String) : String :=
  match kind with
  | gem => ".gem"
  | tarGz => if endsIn ".tgz" name then ".tgz" else ".tar.gz"

/-- A name without as many bytes as its suffix has; the whole name when no character ends
there. -/
def stem (kind : ArchiveKind) (name : String) : String :=
  let length := name.utf8ByteSize - (kind.suffix name).utf8ByteSize
  match Text.takeBytes? name.toList length with
  | some chars => String.ofList chars
  | none => name

/-- Beginning of the name of a directory that archives of this kind are unpacked into. -/
def directoryStart : ArchiveKind → Bytes
  | gem => "gem-"
  | tarGz => "archive-"

end ArchiveKind

/-- Name of the package at a path: the last component of the path in normal form, without the
suffix of an archive. Without such a component that is a text, the whole path is shown. -/
def packageName (workingDirectory path : Path) : String :=
  let components := (Path.absolute? workingDirectory path).getD path.components
  match (Path.fileNameOf? components).bind Bytes.text? with
  | none => (Path.ofComponents components).text
  | some name =>
    match ArchiveKind.ofName? name with
    | some kind => kind.stem name
    | none => name

end CallSift

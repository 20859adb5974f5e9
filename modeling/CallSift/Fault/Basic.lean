import CallSift.Fault.Cause
import CallSift.Path.Basic

/-!
# What can go wrong

A fault is fatal or belongs to one file. Fatal faults end a run; the others are
reported as diagnostics, and the run goes on with the next file.

* `Fault.isFatal`, `Fault.stage` and `Fault.message` say what a report needs.
-/
namespace CallSift

/-- The part of a run that a fault belongs to. -/
inductive Stage where
  | discovery
  | read
  | parse
  | traversal
  | normalize
  | output
  deriving DecidableEq, Repr

/-- What is wrong with an archive. -/
inductive ArchiveDamage where
  /-- The data end where more are needed. -/
  | truncated
  | badGzipHeader
  | badDeflateData
  | badGzipTrailer
  | badHeader
  | badChecksum
  /-- A name or an attribute for a member that does not follow, or a second one for it. -/
  | strayDescription
  | badLink
  /-- A member cannot be put where its name says. -/
  | unwritable
  /-- No directory to unpack into can be made. -/
  | noDirectory
  deriving DecidableEq, Repr

namespace ArchiveDamage

def message : ArchiveDamage → String
  | truncated => "unexpected end of data"
  | badGzipHeader => "invalid gzip header"
  | badDeflateData => "corrupt deflate stream"
  | badGzipTrailer => "corrupt gzip stream does not have a matching checksum"
  | badHeader => "numeric field was not a number"
  | badChecksum => "archive header checksum mismatch"
  | strayDescription => "member description without its member"
  | badLink => "invalid link"
  | unwritable => "failed to unpack a member"
  | noDirectory => "no directory to unpack into"

end ArchiveDamage

/-- Why an archive cannot be unpacked. -/
inductive UnpackCause where
  | io (cause : IoCause)
  /-- A gem holds its sources in one member, which is absent. -/
  | noDataMember
  | damaged (damage : ArchiveDamage)
  deriving DecidableEq, Repr

/-- Member of a gem that holds the packaged sources. -/
def gemDataMember : String := "data.tar.gz"

namespace UnpackCause

def message : UnpackCause → String
  | io cause => cause.message
  | noDataMember => s!"no {gemDataMember} member"
  | damaged damage => damage.message

end UnpackCause

inductive Fault where
  | inputNotFound (path : Path)
  | unpack (path : Path) (cause : UnpackCause)
  | fileRead (path : Path) (cause : IoCause)
  | parse (path : Path) (reason : String)
  | traversal (path : Path) (reason : String)
  | malformedRange (path : Path) (reason : String)
  | outputWrite (path : Path) (cause : IoCause)
  deriving DecidableEq, Repr

namespace Fault

def isFatal : Fault → Bool
  | inputNotFound _ | unpack .. | outputWrite .. => true
  | fileRead .. | parse .. | traversal .. | malformedRange .. => false

def stage : Fault → Stage
  | inputNotFound _ | unpack .. => .discovery
  | fileRead .. => .read
  | parse .. => .parse
  | traversal .. => .traversal
  | malformedRange .. => .normalize
  | outputWrite .. => .output

def message : Fault → String
  | inputNotFound path => s!"inpath {path.text} doesn't exist"
  | unpack path cause => s!"failed to unpack archive {path.text}: {cause.message}"
  | fileRead path cause => s!"failed to read file {path.text}: {cause.message}"
  | parse path reason => s!"failed to parse {path.text}: {reason}"
  | traversal path reason => s!"traversal failed in {path.text}: {reason}"
  | malformedRange path reason => s!"malformed source range in {path.text}: {reason}"
  | outputWrite path cause => s!"failed to write output {path.text}: {cause.message}"

end Fault

/-- A recovered fault of one file. -/
structure Diagnostic where
  path : Path
  stage : Stage
  message : String
  deriving DecidableEq, Repr

namespace Diagnostic

def ofFault (path : Path) (fault : Fault) : Diagnostic := ⟨path, fault.stage, fault.message⟩

end Diagnostic
end CallSift

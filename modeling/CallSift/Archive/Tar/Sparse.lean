import CallSift.Archive.Stream
import CallSift.Archive.Tar.Header

/-!
# Contents of members

The content of a member stands behind its header, filled up to whole blocks. Of
a file with gaps only some stretches are stored, one behind another; the header
says where in the file they belong, and all else in the file is zero. When it
has no room for all of them, further blocks list the rest, between the header and
the content.

* `stretches` reads the stretches that a block lists.
* `ends?` lays stretches out, and answers where they end.
* `Body.ofHeader?` is the content behind a header.
-/
namespace CallSift.Tar

/-- The position behind a content filled up to whole blocks. -/
def behind (position size : Nat) : Nat :=
  position + (size + blockSize - 1) / blockSize * blockSize

/-! ## Stretches -/

/-- A part of a file with gaps that is stored. -/
structure Stretch where
  /-- Where in the file it begins. -/
  start : Nat
  length : Nat
  deriving DecidableEq, Repr

/-- The stretch that an item in a block states by two numbers of twelve bytes. An item of which a
number begins with a zero byte states none. -/
def stretch? (block : Header) (position : Nat) : Except ArchiveDamage (Option Stretch) :=
  if (block.field position 1 ++ block.field (position + 12) 1).contains 0 then .ok none
  else
    match block.octal? position 12, block.octal? (position + 12) 12 with
    | some start, some length => .ok (some ⟨start, length⟩)
    | _, _ => .error .badHeader

/-- The stretches that so many items from a position on state. -/
def stretches (block : Header) (position items : Nat) : Except ArchiveDamage (List Stretch) :=
  ((List.range items).mapM fun item => stretch? block (position + 24 * item)).map
    (·.filterMap id)

/-- The stretches that blocks behind a header list, and the position behind these blocks. A block
says whether another one follows. -/
def furtherStretches (stream : Stream) : Nat → Nat → Except ArchiveDamage (List Stretch × Nat)
  | 0, _ => .error .truncated
  | fuel + 1, position => do
    let some block ← stream.block? position blockSize | throw .truncated
    let block : Header := ⟨block⟩
    let listed ← stretches block 0 21
    if block.field 504 1 = [1] then
      let (further, next) ← furtherStretches stream fuel (position + blockSize)
      return (listed ++ further, next)
    else return (listed, position + blockSize)

/-- All stretches of a header, and the position behind the blocks that list them. -/
def allStretches (stream : Stream) (header : Header) (position : Nat) :
    Except ArchiveDamage (List Stretch × Nat) := do
  let listed ← stretches header 386 4
  if header.field 482 1 = [1] then
    let (further, next) ← furtherStretches stream (stream.bytes.size / blockSize + 1) position
    return (listed ++ further, next)
  else return (listed, position)

/-- Where the stored bytes and the file end when stretches are laid out behind so many stored bytes
and such an end of the file. They must come in order, and each must begin a block of the stored
bytes. -/
def ends? (stored stop : Nat) : List Stretch → Option (Nat × Nat)
  | [] => some (stored, stop)
  | stretch :: rest =>
    if (stretch.length ≠ 0 ∧ stored % blockSize ≠ 0) ∨ stretch.start < stop then none
    else ends? (stored + stretch.length) (stretch.start + stretch.length) rest

def zeros (count : Nat) : ByteArray := ⟨Array.replicate count 0⟩

/-- Puts the stored bytes from a position on where the stretches belong. -/
def spread (bytes : ByteArray) (position stop : Nat) (content : ByteArray) :
    List Stretch → ByteArray
  | [] => content
  | stretch :: rest =>
    spread bytes (position + stretch.length) (stretch.start + stretch.length)
      (content ++ zeros (stretch.start - stop) ++
        bytes.extract position (position + stretch.length)) rest

/-! ## Bodies -/

/-- What stands behind a header. -/
structure Body where
  content : ByteArray
  /-- All bytes of the announced size are there. -/
  complete : Bool
  /-- The position behind the content. -/
  next : Nat

namespace Body

/-- So many bytes from a position on. -/
def plain (stream : Stream) (position size : Nat) : Body :=
  let content := stream.available position size
  { content, complete := content.size = size, next := behind position size }

/-- The content of a file with gaps. Its stretches must end where the stored bytes end, and where
the header says that the file ends. -/
def sparse? (stream : Stream) (header : Header) (position size : Nat) :
    Except ArchiveDamage Body := do
  let (stretches, start) ← allStretches stream header position
  if header.isOlder ∧ ends? 0 0 stretches = (header.octal? 483 12).map (size, ·) then
    let stored := plain stream start size
    return { stored with content := spread stored.content 0 0 .empty stretches }
  else throw .badHeader

/-- The content of the announced size that begins behind a header. -/
def ofHeader? (stream : Stream) (header : Header) (position size : Nat) :
    Except ArchiveDamage Body :=
  if header.memberType = .sparse then sparse? stream header position size
  else .ok (plain stream position size)

end Body
end CallSift.Tar

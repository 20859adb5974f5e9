import CallSift.Fault.Basic

/-!
# Streams

Damage of a compressed file shows only to a reader that comes to it. A `Stream`
holds the bytes that can be read and what happens behind them.
-/
namespace CallSift

/-- Bytes to be read one after another. Behind the last one comes the end, or a fault. -/
structure Stream where
  bytes : ByteArray
  fault : Option ArchiveDamage

namespace Stream

/-- All bytes are there. -/
def ofBytes (bytes : ByteArray) : Stream := ⟨bytes, none⟩

/-- A fault before the first byte. -/
def failing (fault : ArchiveDamage) : Stream := ⟨.empty, some fault⟩

/-- The bytes that can be read at a position, at most `count` of them. -/
def available (stream : Stream) (position count : Nat) : ByteArray :=
  stream.bytes.extract position (position + count)

/-- A block of bytes at a position, or none at the very end. -/
def block? (stream : Stream) (position length : Nat) :
    Except ArchiveDamage (Option ByteArray) :=
  if position + length ≤ stream.bytes.size then .ok (some (stream.available position length))
  else
    match stream.fault with
    | some fault => .error fault
    | none => if position = stream.bytes.size then .ok none else .error .truncated

end Stream
end CallSift

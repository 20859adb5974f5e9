import CallSift.Archive.Deflate
import CallSift.Archive.Stream

/-!
# Compressed files

A compressed file is a header, a deflated stream, and a trailer with the
checksum and the length of the content. Only the first such member of a file
counts.

* `checksum` is the cyclic redundancy check of some bytes.
* `decompress` is the content of a file, as far as it can be read.
-/
namespace CallSift.Gzip

def byteAt? (data : ByteArray) (position : Nat) : Option Nat :=
  data[position]?.map UInt8.toNat

/-- A number of so many bytes, the lowest first. -/
def number? (data : ByteArray) (position : Nat) : Nat → Option Nat
  | 0 => some 0
  | count + 1 => do
    let low ← byteAt? data position
    let high ← number? data (position + 1) count
    return low + 256 * high

/-- The position behind the first zero byte. -/
def afterZero? (data : ByteArray) : Nat → Nat → Option Nat
  | 0, _ => none
  | fuel + 1, position =>
    match byteAt? data position with
    | none => none
    | some 0 => some (position + 1)
    | some _ => afterZero? data fuel (position + 1)

/-! ## Checksum -/

/-- Takes eight more bits into a checksum. -/
def checksumBits : Nat → UInt32 → UInt32
  | 0, sum => sum
  | count + 1, sum =>
    checksumBits count (if sum &&& 1 = 1 then (sum >>> 1) ^^^ 0xEDB88320 else sum >>> 1)

/-- The cyclic redundancy check of some bytes. -/
def checksum (data : ByteArray) : UInt32 :=
  (data.foldl (fun sum byte => checksumBits 8 (sum ^^^ byte.toUInt32)) 0xFFFFFFFF) ^^^ 0xFFFFFFFF

/-! ## Header -/

/-- A flag of the header is set. -/
def flag (flags place : Nat) : Bool := flags.testBit place

/-- The position behind the parts of the header that flags announce: extra data, a name, a comment,
a checksum of the header. -/
def optionalParts (data : ByteArray) (flags position : Nat) : Option Nat := do
  let position ←
    if flag flags 2 then (number? data position 2).map (position + 2 + ·) else some position
  let position ← if flag flags 3 then afterZero? data (data.size + 1) position else some position
  let position ← if flag flags 4 then afterZero? data (data.size + 1) position else some position
  if flag flags 1 then
    let sum ← number? data position 2
    let expected := (checksum (data.extract 0 position)).toNat % UInt16.size
    if sum = expected then some (position + 2) else none
  else some position

/-- The position behind the header, in which the three highest flags must not be set. -/
def header? (data : ByteArray) : Option Nat := do
  let magic ← number? data 0 2
  let method ← byteAt? data 2
  let flags ← byteAt? data 3
  let _ ← byteAt? data 9
  if magic = 0x8B1F ∧ method = 8 ∧ flags < 32 then optionalParts data flags 10 else none

/-! ## Content -/

/-- What happens behind the content: the trailer must follow and fit. -/
def trailerFault (data output : ByteArray) (position : Nat) : Option ArchiveDamage :=
  match number? data position 4, number? data (position + 4) 4 with
  | some sum, some length =>
    if sum = (checksum output).toNat ∧ length = output.size % UInt32.size then none
    else some .badGzipTrailer
  | _, _ => some .truncated

/-- The content of a compressed file. -/
def decompress (data : ByteArray) : Stream :=
  match header? data with
  | none => .failing .badGzipHeader
  | some start =>
    let progress := Deflate.inflate data start
    match progress.stuck with
    | some .truncated => ⟨progress.output, some .truncated⟩
    | some .corrupt => ⟨progress.output, some .badDeflateData⟩
    | none =>
      ⟨progress.output, trailerFault data progress.output ((progress.position + 7) / 8)⟩

end CallSift.Gzip

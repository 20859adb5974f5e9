import CallSift.Bytes

/-!
# Headers of tar files

A header is one block of 512 bytes, cut into fields of texts and of numbers in
octal digits.

* `Header.memberType` is what the header announces.
* `Header.octal?` and `Header.size?` read numbers.
* `Header.checksum` is the sum that a header must state.
-/
namespace CallSift.Tar

def blockSize : Nat := 512

structure Header where
  block : ByteArray

/-- What the type byte of a header announces. Unknown types are files. -/
inductive MemberType where
  | file
  | hardLink
  | link
  | directory
  /-- Properties of all members that follow. -/
  | globalProperties
  /-- Properties of the next member. -/
  | properties
  /-- A file with gaps. -/
  | sparse
  | longName
  | longLink
  deriving DecidableEq, Repr

/-- Members of the type only describe others. -/
def MemberType.isDescription : MemberType → Bool
  | globalProperties | properties | longName | longLink => true
  | file | hardLink | link | directory | sparse => false

namespace Header

def field (header : Header) (start length : Nat) : List UInt8 :=
  (header.block.extract start (start + length)).data.toList

/-- A field up to its first zero byte. -/
def text (header : Header) (start length : Nat) : List UInt8 :=
  (header.field start length).takeWhile (· ≠ 0)

def isBlank (c : Char) : Bool := c = ' ' || ('\t' ≤ c && c ≤ '\r')

/-- The number that digits of a base below ten stand for; a plus may stand in front. -/
def digits? (base : Nat) (text : List Char) : Option Nat :=
  let digits := if text.head? = some '+' then text.tail else text
  if digits = [] then none
  else
    digits.foldlM (fun number c =>
      if '0' ≤ c ∧ c.toNat < 48 + base then some (base * number + (c.toNat - 48)) else none) 0

/-- The number that a field holds as octal digits between blanks. -/
def octal? (header : Header) (start length : Nat) : Option Nat :=
  let chars := (header.text start length).map Char.ofUInt8
  let trimmed := ((chars.dropWhile isBlank).reverse.dropWhile isBlank).reverse
  digits? 8 trimmed

/-- The number that bytes stand for, the highest first. -/
def ofBytes (bytes : List UInt8) : Nat :=
  bytes.foldl (fun number byte => 256 * number + byte.toNat) 0

/-- Size of the content: octal digits, or eight bytes behind a first byte with its highest bit
set. -/
def size? (header : Header) : Option Nat :=
  if (header.field 124 1).any (128 ≤ ·) then some (ofBytes (header.field 128 8))
  else header.octal? 124 12

/-- The sum of all bytes, those of the sum itself counted as blanks. -/
def checksum (header : Header) : Nat :=
  (header.field 0 148 ++ header.field 156 356).foldl (fun sum byte => sum + byte.toNat)
    (8 * ' '.toNat)

/-- All bytes are zero. -/
def isEnd (header : Header) : Bool := header.block.data.all (· = 0)

/-- Magic and version of the standard format. -/
def isStandard (header : Header) : Bool :=
  header.field 257 8 = "ustar".toUTF8.data.toList ++ [0] ++ "00".toUTF8.data.toList

/-- Magic and version of the older format with long names. -/
def isOlder (header : Header) : Bool :=
  header.field 257 8 = "ustar  ".toUTF8.data.toList ++ [0]

-- A proof that looks into this definition would count its way through the block.
@[irreducible]
def memberType (header : Header) : MemberType :=
  match (header.field 156 1).map Char.ofUInt8 with
  | ['1'] => .hardLink
  | ['2'] => .link
  | ['5'] => .directory
  | ['g'] => .globalProperties
  | ['x'] => .properties
  | ['S'] => .sparse
  | ['L'] => .longName
  | ['K'] => .longLink
  | _ => .file

/-- The name in the header: in the standard format it may have a first part of its own. -/
def name (header : Header) : List UInt8 :=
  let first := if header.isStandard then header.text 345 155 else []
  if first = [] then header.text 0 100 else first ++ Bytes.slash :: header.text 0 100

/-- The bits that say who may do what with the member. -/
def mode? (header : Header) : Option Nat := header.octal? 100 8

/-- The target of a link in the header. -/
def target? (header : Header) : Option (List UInt8) :=
  let target := header.text 157 100
  if target = [] then none else some target

end Header

end CallSift.Tar

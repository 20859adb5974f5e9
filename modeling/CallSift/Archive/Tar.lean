import CallSift.Archive.Tar.Sparse
import CallSift.Path.Basic

/-!
# Tar files

A tar file is a row of members, each a header of one block and a content filled
up to whole blocks. A block of zeros ends it, or the end of the data does. Some
members only describe the next one: its name, the target of its link, or its
properties.

* `properties` reads the lines of a property member.
* `members` reads a stream as far as it goes, and answers how it ended.
-/
namespace CallSift.Tar

/-! ## Properties -/

/-- A line `length name=value`, where the length counts the line and its end. -/
def property? (line : List UInt8) : Option (List UInt8 × List UInt8) :=
  match line.span (· ≠ ' '.toUInt8) with
  | (length, _ :: pair) =>
    match pair.span (· ≠ '='.toUInt8) with
    | (name, _ :: value) =>
      if Header.digits? 10 (length.map Char.ofUInt8) = some (line.length + 1) then
        some (name, value)
      else none
    | _ => none
  | _ => none

/-- The lines of a property member, `none` for a malformed one. An empty line ends them. -/
def properties (content : List UInt8) : List (Option (List UInt8 × List UInt8)) :=
  ((Text.splitAt '\n'.toUInt8 content).takeWhile (· ≠ [])).map property?

/-- The value of the first property of a name. -/
def property (name : String) (properties : List (Option (List UInt8 × List UInt8))) :
    Option (List UInt8) :=
  (properties.filterMap id).lookup name.toUTF8.data.toList

/-- The size that properties give, unless a malformed line comes first. -/
def propertySize? (properties : List (Option (List UInt8 × List UInt8))) : Option Nat := do
  let value ← property "size" (properties.takeWhile Option.isSome)
  let size ← Header.digits? 10 (value.map Char.ofUInt8)
  if size < UInt64.size then some size else none

/-! ## Members -/

/-- What to do with a member. -/
inductive Role where
  | file
  /-- A directory; unless its name alone says so, it is made when all else is in its place. -/
  | directory (late : Bool)
  | link (target : Option Bytes)
  | hardLink (target : Option Bytes)
  /-- Only describes others. -/
  | description
  deriving DecidableEq, Repr

structure Member where
  name : Path
  role : Role
  /-- The bits that say who may do what with it. -/
  mode : Option Nat
  content : ByteArray
  /-- The content has the announced size. -/
  complete : Bool

/-- Members in order, and what stops the reader behind them, if it is not the end. -/
structure Members where
  members : List Member
  fault : Option ArchiveDamage

/-- What members before it say of the next member. -/
structure Description where
  name : Option (List UInt8)
  target : Option (List UInt8)
  properties : Option (List UInt8)
  deriving DecidableEq, Repr

namespace Description

def empty : Description := ⟨none, none, none⟩

/-- Adds what a member says, unless it is said already. -/
def add? (description : Description) (memberType : MemberType) (content : List UInt8) :
    Option Description :=
  match memberType with
  | .longName =>
    if description.name.isSome then none else some { description with name := content }
  | .longLink =>
    if description.target.isSome then none else some { description with target := content }
  | .properties =>
    if description.properties.isSome then none
    else some { description with properties := content }
  | _ => some description

/-- A text in a member of its own may end in a zero byte. -/
def withoutEnd (content : List UInt8) : List UInt8 :=
  if content.getLast? = some 0 then content.dropLast else content

/-- The lines of properties. -/
def lines (description : Description) : List (Option (List UInt8 × List UInt8)) :=
  (description.properties.map Tar.properties).getD []

/-- The name of the described member. -/
def nameOf (description : Description) (header : Header) : List UInt8 :=
  ((description.name.map withoutEnd).or (property "path" description.lines)).getD header.name

/-- The target of the described member. -/
def targetOf (description : Description) (header : Header) : Option (List UInt8) :=
  ((description.target.map withoutEnd).or (property "linkpath" description.lines)).or
    header.target?

/-- The size of the content behind a header. Properties of a member go before its header, whose own
size must be well-formed all the same; they do not concern what comes between them and their
member. -/
def sizeOf? (description : Description) (header : Header) : Option Nat :=
  header.size?.map fun size =>
    if header.memberType.isDescription then size
    else (propertySize? description.lines).getD size

end Description

/-- Whether a member only describes the next one. -/
def describes (header : Header) : Bool :=
  (header.isStandard || header.isOlder) && header.memberType.isDescription &&
    header.memberType ≠ .globalProperties

/-- What to do with a member of a name. In formats before the standard one, a slash behind the
name of a file makes it a directory. -/
def role (header : Header) (name : List UInt8) (target : Option (List UInt8)) : Role :=
  match header.memberType with
  | .directory => .directory true
  | .link => .link (target.map Bytes.ofList)
  | .hardLink => .hardLink (target.map Bytes.ofList)
  | .globalProperties | .properties | .longName | .longLink => .description
  | .file | .sparse =>
    if !header.isStandard && name.getLast? = some Bytes.slash then .directory false else .file

/-- A header and the size of the content behind it, or none at the end. -/
def header? (stream : Stream) (description : Description) (position : Nat) :
    Except ArchiveDamage (Option (Header × Nat)) := do
  let some block ← stream.block? position blockSize | return none
  let header : Header := ⟨block⟩
  if header.isEnd then return none
  let some sum := header.octal? 148 8 | throw .badHeader
  if sum ≠ header.checksum then throw .badChecksum
  let some size := description.sizeOf? header | throw .badHeader
  if UInt64.size ≤ behind (position + blockSize) size then throw .badHeader
  return some (header, size)

/-- Reads members from a position on; `fuel` bounds their number. -/
def membersFrom (stream : Stream) : Nat → Description → Nat → Members
  | 0, _, _ => ⟨[], some .truncated⟩
  | fuel + 1, description, position =>
    match header? stream description position with
    | .error fault => ⟨[], some fault⟩
    | .ok none =>
      ⟨[], if description = .empty then none else some .strayDescription⟩
    | .ok (some (header, size)) =>
      match Body.ofHeader? stream header (position + blockSize) size with
      | .error fault => ⟨[], some fault⟩
      | .ok body =>
        if describes header then
          match description.add? header.memberType body.content.data.toList with
          | none => ⟨[], some .strayDescription⟩
          | some description => membersFrom stream fuel description body.next
        else
          let rest := membersFrom stream fuel .empty body.next
          let name := description.nameOf header
          let member : Member :=
            { name := ⟨⟨name⟩⟩
              role := role header name (description.targetOf header)
              mode := header.mode?, content := body.content, complete := body.complete }
          ⟨member :: rest.members, rest.fault⟩

/-- The members of a tar file. -/
def members (stream : Stream) : Members :=
  membersFrom stream (stream.bytes.size / blockSize + 2) .empty 0

end CallSift.Tar

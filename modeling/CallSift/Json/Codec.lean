import CallSift.Json.Value

/-!
# Typed documents

How values of a type stand in a document and are read back. Records are objects
with a member for each field; read back, an object may hold other members too,
which are ignored, and an array of the fields in their order will do as well; a
format may allow items behind them, which are ignored too.

* A field that is absent from the document is an error, unless it is optional or
  has a default; a field given twice is an error.
* `null` stands for an absent optional field and for nothing else.
* Numbers are integers of a fixed width, written without point and exponent.
-/
namespace CallSift.Json

/-- What differs between the document formats. -/
structure Format where
  /-- The payload that a case without content may carry, written as an object. -/
  isUnit : Value → Bool
  /-- An array of fields may hold more items than the record has fields. -/
  allowsSurplus : Bool

namespace Format

def json : Format where
  isUnit
    | .null => true
    | _ => false
  allowsSurplus := false

end Format

/-- How values of a type are written and read. -/
structure Codec (α : Type) where
  encode : α → Value
  decode : Format → Value → Option α

/-! ## Numbers -/

/-- The number that a token of digits stands for. -/
def natOfDigits? (cs : List Char) : Option Nat :=
  if cs ≠ [] ∧ cs.all Char.isDigit then some (Nat.ofDigitChars 10 cs 0) else none

/-- The integer that a token stands for: digits, or a minus sign and digits other than a zero
alone. -/
def intOfDigits? (cs : List Char) : Option Int :=
  match cs with
  | '-' :: digits => (natOfDigits? digits).bind fun n => if n = 0 then none else some (-n)
  | digits => (natOfDigits? digits).map Int.ofNat

/-- Unsigned numbers have 64 bits. -/
def natBound : Nat := UInt64.size

namespace Codec

def nat : Codec Nat where
  encode := .ofNat
  decode
    | _, .token text => (natOfDigits? text.toList).filter (· < natBound)
    | _, _ => none

def int32 : Codec Int32 where
  encode n := .ofInt n.toInt
  decode
    | _, .token text => (intOfDigits? text.toList).bind fun n =>
        if Int32.minValue.toInt ≤ n ∧ n ≤ Int32.maxValue.toInt then some (Int32.ofInt n) else none
    | _, _ => none

/-! ## Words, texts and lists -/

def bool : Codec Bool where
  encode := .bool
  decode
    | _, .bool b => some b
    | _, _ => none

def string : Codec String where
  encode := .string
  decode
    | _, .string text => some text
    | _, _ => none

def list {α : Type} (item : Codec α) : Codec (List α) where
  encode items := .array (items.map item.encode)
  decode
    | format, .array items => items.mapM (item.decode format)
    | _, _ => none

/-- One of finitely many cases, written as its name. Read back, an object whose only member has
that name will do as well, if the payload is the format's unit. -/
def cases {α : Type} [DecidableEq α] (names : List (String × α)) : Codec α where
  encode a := .string (((names.find? fun entry => entry.2 = a).map (·.1)).getD "")
  decode
    | _, .string name => names.lookup name
    | format, .object [(name, payload)] => if format.isUnit payload then names.lookup name else none
    | _, _ => none

end Codec

/-! ## Records -/

/-- The members of a record's document that are fields, under their names. -/
def fields? (names : List String) (format : Format) : Value → Option (List (String × Value))
  | .object members =>
    let known := members.filter fun member => names.contains member.1
    if (known.map (·.1)).Nodup then some known else none
  | .array items =>
    if items.length ≤ names.length || format.allowsSurplus then some (names.zip items) else none
  | _ => none

/-- The fields of a record's document, to be read in a format. -/
structure Fields where
  format : Format
  members : List (String × Value)

namespace Fields

def of? (names : List String) (format : Format) (value : Value) : Option Fields :=
  (fields? names format value).map (Fields.mk format)

def required {α : Type} (fields : Fields) (name : String) (codec : Codec α) : Option α :=
  (fields.members.lookup name).bind (codec.decode fields.format)

/-- A field that may be left out. -/
def defaulted {α : Type} (fields : Fields) (name : String) (codec : Codec α) (absent : α) :
    Option α :=
  match fields.members.lookup name with
  | some value => codec.decode fields.format value
  | none => some absent

/-- A field that may be left out or `null`. -/
def optional {α : Type} (fields : Fields) (name : String) (codec : Codec α) :
    Option (Option α) :=
  match fields.members.lookup name with
  | some .null | none => some none
  | some value => (codec.decode fields.format value).map some

end Fields

namespace Codec

/-- A field as it is written. -/
def member {α : Type} (codec : Codec α) (name : String) (value : α) : List (String × Value) :=
  [(name, codec.encode value)]

/-- An optional field as it is written: not at all when it is absent. -/
def optionalMember {α : Type} (codec : Codec α) (name : String) (value : Option α) :
    List (String × Value) :=
  match value with
  | some value => codec.member name value
  | none => []

end Codec
end CallSift.Json

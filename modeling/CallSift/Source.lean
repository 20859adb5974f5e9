import CallSift.Text
import CallSift.Text.Bytes

/-!
# Source text addressed by byte offsets

Syntax trees address a source by byte offsets of its UTF-8 encoding, reports by
rows and by columns counted in characters.

* `slice?` cuts the characters between two byte offsets.
* `row` and `byteColumn` place a byte offset: rows are separated by line feeds
  only, and a carriage return is an ordinary character.
* `column` counts the characters of the bytes that lie between the start of the
  row and the offset.
-/
namespace CallSift

/-- A source text as the list of its characters. -/
structure Source where
  chars : List Char
  deriving DecidableEq

namespace Source

def ofString (text : String) : Source := ⟨text.toList⟩

/-- The text between two byte offsets, the second excluded. -/
def slice? (source : Source) (start stop : Nat) : Option String :=
  if start ≤ stop then
    ((Text.dropBytes? source.chars start).bind (Text.takeBytes? · (stop - start))).map
      String.ofList
  else none

/-- Row of a byte offset, counted from zero. -/
def row (source : Source) (offset : Nat) : Nat := (Text.before source.chars offset).count '\n'

/-- Bytes between the start of the row and a byte offset. -/
def byteColumn (source : Source) (offset : Nat) : Nat :=
  Text.byteLength (Text.lastLine (Text.before source.chars offset))

/-- The bytes between two offsets, the second excluded. -/
def bytes? (source : Source) (start stop : Nat) : Option (List UInt8) :=
  let bytes := source.chars.flatMap String.utf8EncodeChar
  if start ≤ stop ∧ stop ≤ bytes.length then some ((bytes.take stop).drop start) else none

/-- Characters in the `byteColumn` bytes before an offset; the bytes are counted themselves when
there are fewer. -/
def charColumn (source : Source) (offset byteColumn : Nat) : Nat :=
  if byteColumn ≤ offset then
    match source.bytes? (offset - byteColumn) offset with
    | some line => (Text.ofBytes line).length
    | none => byteColumn
  else byteColumn

/-- Characters between the start of the row and a byte offset. -/
def column (source : Source) (offset : Nat) : Nat :=
  source.charColumn offset (source.byteColumn offset)

end Source
end CallSift

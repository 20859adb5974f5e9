/-!
# Bytes read as text

Names come as bytes that need not be UTF-8. The longest bytes that begin a
character without completing it, or else the one byte that begins none, are no
character.

* `charsOf` finds the characters in bytes.
* `ofBytes` reads bytes as a text and never fails: what is no character is read
  as one replacement character.
* `ofBytes?` reads only what is a text.
-/
namespace CallSift.Text

/-- Stands for bytes that are no character. -/
def replacement : Char := '\uFFFD'

/-- Lowest and highest second byte behind a first byte that begins a character of several. -/
def secondByte? (first : Nat) : Option (Nat × Nat) :=
  if first = 0xE0 then some (0xA0, 0xBF)
  else if first = 0xED then some (0x80, 0x9F)
  else if first = 0xF0 then some (0x90, 0xBF)
  else if first = 0xF4 then some (0x80, 0x8F)
  else if 0xC2 ≤ first ∧ first < 0xF4 then some (0x80, 0xBF)
  else none

/-- How many bytes begin a character that the bytes behind them do not complete; one, if none do. -/
def brokenLength : List UInt8 → Nat
  | first :: second :: rest =>
    match secondByte? first.toNat with
    | none => 1
    | some (lowest, highest) =>
      if second.toNat < lowest ∨ highest < second.toNat then 1
      else if first.toNat < 0xF0 then 2
      else
        match rest with
        | third :: _ => if third.toNat / 64 = 2 then 3 else 2
        | [] => 2
  | _ => 1

/-- The character that bytes begin with. -/
def firstOf? (bytes : List UInt8) : Option Char := (bytes.take 4).toByteArray.utf8DecodeChar? 0

/-- The characters in bytes; `fuel` bounds their number. -/
def readChars : Nat → List UInt8 → List (Option Char)
  | 0, _ | _ + 1, [] => []
  | fuel + 1, byte :: rest =>
    match firstOf? (byte :: rest) with
    | some c => some c :: readChars fuel ((byte :: rest).drop c.utf8Size)
    | none => none :: readChars fuel ((byte :: rest).drop (brokenLength (byte :: rest)))

/-- The characters in bytes, and `none` for what is no character. -/
def charsOf (bytes : List UInt8) : List (Option Char) := readChars bytes.length bytes

/-- Bytes as a text. -/
def ofBytes (bytes : List UInt8) : String :=
  String.ofList ((charsOf bytes).map (·.getD replacement))

/-- The text that bytes are. -/
def ofBytes? (bytes : List UInt8) : Option String := ((charsOf bytes).mapM id).map String.ofList

end CallSift.Text

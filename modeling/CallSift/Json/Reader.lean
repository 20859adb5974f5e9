import CallSift.Json.Text
import CallSift.Json.Value

/-!
# Reading documents

A reader takes a value off the front of a text. Fuel bounds its recursion; one
unit more than the text has characters always suffices, since every value,
item and member takes at least one.

* `readNumber` reads a number token: no leading zeros, no leading plus.
* `readValue` reads any value.
* `read?` reads a whole text: nothing but blanks may follow the value.
-/
namespace CallSift.Json

def isBlank (c : Char) : Bool := c = ' ' || c = '\t' || c = '\n' || c = '\r'

def skipBlanks (cs : List Char) : List Char := cs.dropWhile isBlank

/-- What follows a word that the text must begin with. -/
def dropWord : List Char → List Char → Option (List Char)
  | [], cs => some cs
  | _ :: _, [] => none
  | w :: word, c :: cs => if w = c then dropWord word cs else none

/-! ## Numbers -/

def isDigit (c : Char) : Bool := '0' ≤ c && c ≤ '9'

/-- The digits at the front, at least one, and the rest. -/
def readDigits (cs : List Char) : Option (List Char × List Char) :=
  match cs.span isDigit with
  | ([], _) => none
  | digits => some digits

/-- The whole part of a number: one zero, or digits that begin with another. -/
def readWhole (cs : List Char) : Option (List Char × List Char) :=
  match readDigits cs with
  | some ('0' :: _ :: _, _) => none
  | digits => digits

/-- A point with digits behind it; nothing at all is a fraction too. -/
def readFraction (cs : List Char) : Option (List Char × List Char) :=
  match cs with
  | '.' :: rest => (readDigits rest).map fun (digits, rest) => ('.' :: digits, rest)
  | _ => some ([], cs)

/-- The digits of an exponent behind an optional sign. -/
def readSigned (cs : List Char) : Option (List Char × List Char) :=
  match cs with
  | '+' :: rest => (readDigits rest).map fun (digits, rest) => ('+' :: digits, rest)
  | '-' :: rest => (readDigits rest).map fun (digits, rest) => ('-' :: digits, rest)
  | _ => readDigits cs

/-- The letter e of either case with an exponent; nothing at all is an exponent too. -/
def readExponent (cs : List Char) : Option (List Char × List Char) :=
  match cs with
  | 'e' :: rest => (readSigned rest).map fun (digits, rest) => ('e' :: digits, rest)
  | 'E' :: rest => (readSigned rest).map fun (digits, rest) => ('E' :: digits, rest)
  | _ => some ([], cs)

/-- A number without its sign. -/
def readUnsigned (cs : List Char) : Option (List Char × List Char) := do
  let (whole, rest) ← readWhole cs
  let (fraction, rest) ← readFraction rest
  let (exponent, rest) ← readExponent rest
  return (whole ++ fraction ++ exponent, rest)

def readNumber (cs : List Char) : Option (Value × List Char) :=
  match cs with
  | '-' :: rest =>
    (readUnsigned rest).map fun (number, rest) => (.token (String.ofList ('-' :: number)), rest)
  | _ => (readUnsigned cs).map fun (number, rest) => (.token (String.ofList number), rest)

/-! ## Values -/

/-- Reads a member's name behind its opening quote, and the colon. -/
def readName (cs : List Char) : Option (Option String × List Char) := do
  let (name, rest) ← readText cs
  match skipBlanks rest with
  | ':' :: rest => some (name, skipBlanks rest)
  | _ => none

/-- The object with the given members, latest first; `none` stands for a member whose name is
no text. -/
def ofMembers (members : Option (List (String × Value))) : Value :=
  match members with
  | some members => .object members.reverse
  | none => .unpaired

mutual
/-- Reads a value that begins with the first character. -/
def readValue : Nat → List Char → Option (Value × List Char)
  | 0, _ => none
  | fuel + 1, cs =>
    match cs with
    | '"' :: rest => (readText rest).map fun (text, rest) =>
        (match text with | some text => .string text | none => .unpaired, rest)
    | '[' :: rest =>
      match skipBlanks rest with
      | ']' :: rest => some (.array [], rest)
      | rest => readItems fuel [] rest
    | '\x7b' :: rest =>
      match skipBlanks rest with
      | '\x7d' :: rest => some (.object [], rest)
      | rest => readMembers fuel (some []) rest
    | 'n' :: rest => (dropWord ['u', 'l', 'l'] rest).map fun rest => (.null, rest)
    | 't' :: rest => (dropWord ['r', 'u', 'e'] rest).map fun rest => (.bool true, rest)
    | 'f' :: rest => (dropWord ['a', 'l', 's', 'e'] rest).map fun rest => (.bool false, rest)
    | _ => readNumber cs
/-- Reads the items of an array from the next one to the closing bracket, behind those read. -/
def readItems : Nat → List Value → List Char → Option (Value × List Char)
  | 0, _, _ => none
  | fuel + 1, items, cs =>
    match readValue fuel cs with
    | none => none
    | some (item, rest) =>
      match skipBlanks rest with
      | ',' :: rest => readItems fuel (item :: items) (skipBlanks rest)
      | ']' :: rest => some (.array (item :: items).reverse, rest)
      | _ => none
/-- Reads the members of an object from the next one to the closing brace, behind those read. -/
def readMembers : Nat → Option (List (String × Value)) → List Char → Option (Value × List Char)
  | 0, _, _ => none
  | fuel + 1, members, cs =>
    match cs with
    | '"' :: rest =>
      match readName rest with
      | none => none
      | some (name, rest) =>
        match readValue fuel rest with
        | none => none
        | some (value, rest) =>
          let members := members.bind fun members => name.map fun name => (name, value) :: members
          match skipBlanks rest with
          | ',' :: rest => readMembers fuel members (skipBlanks rest)
          | '\x7d' :: rest => some (ofMembers members, rest)
          | _ => none
    | _ => none
end

/-- The value that a whole text holds. -/
def read? (text : String) : Option Value :=
  let cs := skipBlanks text.toList
  match readValue (cs.length + 1) cs with
  | some (value, rest) => if (skipBlanks rest).isEmpty then some value else none
  | none => none

end CallSift.Json

import CallSift.Json.Codec
import CallSift.Toml.Number
import CallSift.Toml.Table

/-!
# Reading TOML

A text is a list of lines: blank ones, comments, headers, and keys with values.
Fuel bounds the recursion; one unit more than the text has characters always
suffices.

* `readValue` reads a value; arrays and tables in braces nest at most
  `nestingLimit` deep.
* `readLinesOf` reads the lines of a document as sections.
* `read?` reads a whole text.
-/
namespace CallSift.Toml

open Json (Value)

/-- Deepest nesting of arrays and of tables in braces. -/
def nestingLimit : Nat := 79

/-! ## Comments and line ends -/

/-- What follows a comment, if there is one. The comment ends before the line break. -/
def dropComment : List Char → List Char
  | '#' :: rest => rest.dropWhile isPlain
  | cs => cs

/-- Skips to the next line; the end of the text will do. -/
def endLine (cs : List Char) : Option (List Char) :=
  match dropComment (skipBlanks cs) with
  | [] => some []
  | rest => dropNewline? rest

/-- Skips blanks, line breaks and comments; a comment must end in a line break. -/
def skipFiller : Nat → List Char → Option (List Char)
  | 0, _ => none
  | fuel + 1, cs =>
    match skipBlanks cs with
    | '#' :: rest => (dropNewline? (rest.dropWhile isPlain)).bind (skipFiller fuel)
    | rest =>
      match dropNewline? rest with
      | some rest => skipFiller fuel rest
      | none => some rest

/-! ## Values -/

/-- The table that braces with the given pairs, latest first, make. -/
def ofPairs (pairs : List (List String × Value)) : Option Value :=
  ((Table.mk .header []).addAll pairs.reverse).map Table.toValue

mutual
/-- Reads a value with so many levels of nesting left. -/
def readValue : Nat → Nat → List Char → Option (Value × List Char)
  | 0, _, _ => none
  | fuel + 1, levels, cs =>
    match cs with
    | '"' :: rest => (readText '"' rest).map fun (text, rest) => (.string text, rest)
    | '\'' :: rest => (readText '\'' rest).map fun (text, rest) => (.string text, rest)
    | 't' :: 'r' :: 'u' :: 'e' :: rest => some (.bool true, rest)
    | 'f' :: 'a' :: 'l' :: 's' :: 'e' :: rest => some (.bool false, rest)
    | '[' :: rest =>
      match levels with
      | 0 => none
      | levels + 1 => readItems fuel levels [] rest
    | '\x7b' :: rest =>
      match levels with
      | 0 => none
      | levels + 1 =>
        match skipBlanks rest with
        | '\x7d' :: rest => some (.object [], rest)
        | rest => readPairs fuel levels [] rest
    | _ => readNumber cs
/-- Reads the items of an array behind those read, latest first. -/
def readItems : Nat → Nat → List Value → List Char → Option (Value × List Char)
  | 0, _, _, _ => none
  | fuel + 1, levels, items, cs =>
    match skipFiller (cs.length + 1) cs with
    | none => none
    | some (']' :: rest) => some (.array items.reverse, rest)
    | some rest =>
      match readValue fuel levels rest with
      | none => none
      | some (item, rest) =>
        match skipFiller (rest.length + 1) rest with
        | some (',' :: rest) => readItems fuel levels (item :: items) rest
        | some (']' :: rest) => some (.array (item :: items).reverse, rest)
        | _ => none
/-- Reads the pairs of a table in braces behind those read, latest first. -/
def readPairs : Nat → Nat → List (List String × Value) → List Char → Option (Value × List Char)
  | 0, _, _, _ => none
  | fuel + 1, levels, pairs, cs =>
    match readKey (keyLimit) [] cs with
    | some (key, '=' :: rest) =>
      match readValue fuel levels (skipBlanks rest) with
      | none => none
      | some (value, rest) =>
        match skipBlanks rest with
        | ',' :: rest => readPairs fuel levels ((key, value) :: pairs) rest
        | '\x7d' :: rest => (ofPairs ((key, value) :: pairs)).map (·, rest)
        | _ => none
    | _ => none
end

/-! ## Documents -/

/-- A header with the pairs of keys and values under it. -/
inductive Header where
  | table (key : List String)
  /-- In double brackets. -/
  | item (key : List String)

/-- Reads a header behind its first bracket, up to the end of its line. -/
def readHeader (cs : List Char) : Option (Header × List Char) :=
  match cs with
  | '[' :: rest =>
    match readKey keyLimit [] rest with
    | some (key, ']' :: ']' :: rest) => (endLine rest).map (.item key, ·)
    | _ => none
  | _ =>
    match readKey keyLimit [] cs with
    | some (key, ']' :: rest) => (endLine rest).map (.table key, ·)
    | _ => none

/-- Reads a key with its value, up to the end of its line. -/
def readPair (cs : List Char) : Option ((List String × Value) × List Char) :=
  match readKey keyLimit [] cs with
  | some (key, '=' :: rest) => do
    let (value, rest) ← readValue (rest.length + 1) nestingLimit (skipBlanks rest)
    let rest ← endLine rest
    return ((key, value), rest)
  | _ => none

/-- Puts a finished section into the document. -/
def close (table : Table) (header : Option Header) (pairs : List (List String × Value)) :
    Option Table :=
  match header with
  | none => table.addAll pairs.reverse
  | some (.table key) => table.addTable key pairs.reverse
  | some (.item key) => table.addItem key pairs.reverse

/-- Reads the lines of a document. The open section has a header, unless it is the first, and its
pairs so far, latest first. -/
def readLinesOf : Nat → Table → Option Header → List (List String × Value) → List Char →
    Option Table
  | 0, _, _, _, _ => none
  | fuel + 1, table, header, pairs, cs =>
    match skipBlanks cs with
    | [] => close table header pairs
    | '#' :: rest => (endLine ('#' :: rest)).bind (readLinesOf fuel table header pairs)
    | '[' :: rest =>
      match close table header pairs, readHeader rest with
      | some table, some (header, rest) => readLinesOf fuel table (some header) [] rest
      | _, _ => none
    | '\n' :: rest => readLinesOf fuel table header pairs rest
    | '\r' :: '\n' :: rest => readLinesOf fuel table header pairs rest
    | rest =>
      match readPair rest with
      | some (pair, rest) => readLinesOf fuel table header (pair :: pairs) rest
      | none => none

/-- The value that a whole text holds. A byte order mark in front is skipped. -/
def read? (text : String) : Option Value :=
  let cs := match text.toList with
    | '\uFEFF' :: rest => rest
    | cs => cs
  (readLinesOf (cs.length + 1) (.mk .header []) none [] cs).map Table.toValue

end CallSift.Toml

namespace CallSift.Json.Format

/-- In TOML an empty table or array is a payload without content, and surplus items are no
error. -/
def toml : Format where
  isUnit
    | .object [] | .array [] => true
    | _ => false
  allowsSurplus := true

end CallSift.Json.Format

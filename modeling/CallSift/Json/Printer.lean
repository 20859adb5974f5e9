import CallSift.Json.Text
import CallSift.Json.Value

/-!
# Writing documents

* `compact` writes a value on one line without blanks.
* `pretty` writes every item and member on a line of its own, indented by two
  blanks for each level; an empty array or object stays on one line.
-/
namespace CallSift.Json

/-- Pieces with a separator between them. -/
def separated (separator : List Char) : List (List Char) → List Char
  | [] => []
  | [piece] => piece
  | piece :: rest => piece ++ separator ++ separated separator rest

mutual
def compactChars : Value → List Char
  | .null | .unpaired => ['n', 'u', 'l', 'l']
  | .bool true => ['t', 'r', 'u', 'e']
  | .bool false => ['f', 'a', 'l', 's', 'e']
  | .token text => text.toList
  | .string text => quote text
  | .array items => '[' :: separated [','] (compactItems items) ++ [']']
  | .object members => '\x7b' :: separated [','] (compactMembers members) ++ ['\x7d']
/-- Each item by itself. -/
def compactItems : List Value → List (List Char)
  | [] => []
  | item :: rest => compactChars item :: compactItems rest
/-- Each member by itself. -/
def compactMembers : List (String × Value) → List (List Char)
  | [] => []
  | (name, value) :: rest => (quote name ++ ':' :: compactChars value) :: compactMembers rest
end

/-- A line break and the indentation of a level. -/
def newline (level : Nat) : List Char := '\n' :: List.replicate (2 * level) ' '

/-- Brackets around lines; none when there are no lines. -/
def block (opening closing : Char) (level : Nat) (lines : List (List Char)) : List Char :=
  if lines.isEmpty then [opening, closing]
  else opening :: newline (level + 1) ++ separated (',' :: newline (level + 1)) lines ++
    newline level ++ [closing]

mutual
/-- The value as it stands at a level of indentation. -/
def prettyChars (level : Nat) : Value → List Char
  | .null | .unpaired => ['n', 'u', 'l', 'l']
  | .bool true => ['t', 'r', 'u', 'e']
  | .bool false => ['f', 'a', 'l', 's', 'e']
  | .token text => text.toList
  | .string text => quote text
  | .array items => block '[' ']' level (prettyItems (level + 1) items)
  | .object members => block '\x7b' '\x7d' level (prettyMembers (level + 1) members)
/-- Each item by itself. -/
def prettyItems (level : Nat) : List Value → List (List Char)
  | [] => []
  | item :: rest => prettyChars level item :: prettyItems level rest
/-- Each member by itself. -/
def prettyMembers (level : Nat) : List (String × Value) → List (List Char)
  | [] => []
  | (name, value) :: rest =>
    (quote name ++ ':' :: ' ' :: prettyChars level value) :: prettyMembers level rest
end

namespace Value

def compact (value : Value) : String := String.ofList (compactChars value)

def pretty (value : Value) : String := String.ofList (prettyChars 0 value)

end Value
end CallSift.Json

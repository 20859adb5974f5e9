import CallSift.Json.Text

/-!
# Texts and keys of TOML

A text stands on one line between single quotes or double quotes, or on several
lines between three of them. Escapes count only between double quotes. A key is
a dotted list of bare or quoted names.

Readers take what they read off the front of a list of characters. Control
characters other than tabs are refused everywhere, a carriage return without a
line feed behind it too.
-/
namespace CallSift.Toml

/-- A tab or a printable character. -/
def isPlain (c : Char) : Bool := c = '\t' || (32 ≤ c.toNat && c.toNat ≠ 127)

def isBlank (c : Char) : Bool := c = ' ' || c = '\t'

def skipBlanks (cs : List Char) : List Char := cs.dropWhile isBlank

/-- What follows a line break at the front. -/
def dropNewline? : List Char → Option (List Char)
  | '\n' :: rest => some rest
  | '\r' :: '\n' :: rest => some rest
  | _ => none

/-- Skips blanks and line breaks. -/
def skipLines : Nat → List Char → List Char
  | 0, cs => cs
  | fuel + 1, cs =>
    match dropNewline? cs with
    | some rest => skipLines fuel rest
    | none =>
      match cs with
      | c :: rest => if isBlank c then skipLines fuel rest else cs
      | [] => []

/-! ## Escapes -/

/-- The character with the given number, unless it is none. -/
def charOfNumber? (n : Nat) : Option Char :=
  if n < 0xD800 ∨ (0xE000 ≤ n ∧ n < 0x110000) then some (Char.ofNat n) else none

/-- Reads as many hexadecimal digits as wanted. -/
def readHex (count value : Nat) (cs : List Char) : Option (Nat × List Char) :=
  match count, cs with
  | 0, cs => some (value, cs)
  | _ + 1, [] => none
  | count + 1, c :: cs =>
    match Json.hexValue? c with
    | some digit => readHex count (value * 16 + digit) cs
    | none => none

/-- Reads an escape behind its backslash. -/
def readEscape : List Char → Option (Char × List Char)
  | 'u' :: rest => (readHex 4 0 rest).bind fun (n, rest) => (charOfNumber? n).map (·, rest)
  | 'U' :: rest => (readHex 8 0 rest).bind fun (n, rest) => (charOfNumber? n).map (·, rest)
  | '/' :: _ => none
  | c :: rest => (Json.shortEscape? c).map (·, rest)
  | [] => none

/-! ## One line -/

/-- Reads a text up to its closing quote, behind the characters read. -/
def readLine (quote : Char) : Nat → List Char → List Char → Option (String × List Char)
  | 0, _, _ => none
  | _ + 1, _, [] => none
  | fuel + 1, read, c :: rest =>
    if c = quote then some (String.ofList read.reverse, rest)
    else if c = '\\' ∧ quote = '"' then
      match readEscape rest with
      | some (c, rest) => readLine quote fuel (c :: read) rest
      | none => none
    else if isPlain c then readLine quote fuel (c :: read) rest
    else none

/-! ## Several lines -/

/-- What follows a backslash, blanks and a line break, with all the blank lines behind them. -/
def dropContinuation? (fuel : Nat) (cs : List Char) : Option (List Char) :=
  (dropNewline? (skipBlanks cs)).map (skipLines fuel)

/-- Reads a text up to its three closing quotes, behind the characters read. Two more quotes
before them belong to the text. -/
def readLines (quote : Char) : Nat → List Char → List Char → Option (String × List Char)
  | 0, _, _ => none
  | fuel + 1, read, cs =>
    match cs with
    | [] => none
    | c :: rest =>
      if c = quote then
        let run := (cs.takeWhile (· = quote)).length
        if 3 ≤ run then
          let extra := min (run - 3) 2
          some (String.ofList (read.reverse ++ List.replicate extra quote), cs.drop (3 + extra))
        else readLines quote fuel (List.replicate run quote ++ read) (cs.drop run)
      else if c = '\\' ∧ quote = '"' then
        match dropContinuation? fuel rest with
        | some rest => readLines quote fuel read rest
        | none =>
          match readEscape rest with
          | some (c, rest) => readLines quote fuel (c :: read) rest
          | none => none
      else
        match dropNewline? cs with
        | some rest => readLines quote fuel ('\n' :: read) rest
        | none => if isPlain c then readLines quote fuel (c :: read) rest else none

/-- Reads a text of either form that begins with the given quote, behind that quote. -/
def readText (quote : Char) (cs : List Char) : Option (String × List Char) :=
  match cs with
  | c :: d :: rest =>
    if c = quote ∧ d = quote then
      readLines quote (rest.length + 1) [] ((dropNewline? rest).getD rest)
    else readLine quote (cs.length + 1) [] cs
  | _ => readLine quote (cs.length + 1) [] cs

/-! ## Keys -/

def isBare (c : Char) : Bool := c.isAlphanum || c = '_' || c = '-'

/-- Reads one name of a key. -/
def readName (cs : List Char) : Option (String × List Char) :=
  match cs with
  | '"' :: rest => readLine '"' (rest.length + 1) [] rest
  | '\'' :: rest => readLine '\'' (rest.length + 1) [] rest
  | _ =>
    match cs.span isBare with
    | ([], _) => none
    | (name, rest) => some (String.ofList name, rest)

/-- Most names of one key. -/
def keyLimit : Nat := 79

/-- Reads a dotted key with the blanks around its names; `names` were read before. -/
def readKey : Nat → List String → List Char → Option (List String × List Char)
  | 0, _, _ => none
  | fuel + 1, names, cs =>
    match readName (skipBlanks cs) with
    | none => none
    | some (name, rest) =>
      match skipBlanks rest with
      | '.' :: rest => readKey fuel (name :: names) rest
      | rest => some ((name :: names).reverse, rest)

end CallSift.Toml

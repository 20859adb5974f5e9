/-!
# Quoted text

Between its quotes a text has quotes, backslashes and control characters
escaped. Writing escapes nothing else; reading accepts every escape, also
characters given as pairs of surrogates.

* `quote` writes a text with its quotes.
* `readText` reads one behind its opening quote, a character at a time. A lone
  surrogate does not stop it; the answer then is `none` for the text.
-/
namespace CallSift.Json

/-! ## Writing -/

/-- The digit for a value below sixteen. -/
def hexDigit (n : Nat) : Char := if n < 10 then Char.ofNat (48 + n) else Char.ofNat (87 + n)

/-- How a character stands inside quotes. -/
def escape (c : Char) : List Char :=
  if c = '"' then ['\\', '"']
  else if c = '\\' then ['\\', '\\']
  else if c.toNat = 8 then ['\\', 'b']
  else if c.toNat = 12 then ['\\', 'f']
  else if c = '\n' then ['\\', 'n']
  else if c = '\r' then ['\\', 'r']
  else if c = '\t' then ['\\', 't']
  else if c.toNat < 32 then ['\\', 'u', '0', '0', hexDigit (c.toNat / 16), hexDigit (c.toNat % 16)]
  else [c]

def quote (text : String) : List Char := '"' :: text.toList.flatMap escape ++ ['"']

/-! ## Reading -/

/-- The value of a hexadecimal digit of either case. -/
def hexValue? (c : Char) : Option Nat :=
  if '0' ≤ c ∧ c ≤ '9' then some (c.toNat - 48)
  else if 'a' ≤ c ∧ c ≤ 'f' then some (c.toNat - 87)
  else if 'A' ≤ c ∧ c ≤ 'F' then some (c.toNat - 55)
  else none

/-- The character of a one-letter escape. -/
def shortEscape? (c : Char) : Option Char :=
  match c with
  | '"' => some '"'
  | '\\' => some '\\'
  | '/' => some '/'
  | 'b' => some (Char.ofNat 8)
  | 'f' => some (Char.ofNat 12)
  | 'n' => some '\n'
  | 'r' => some '\r'
  | 't' => some '\t'
  | _ => none

/-- Where a reader stands inside quotes. `high` is the first half of a surrogate pair that was
just read. -/
inductive TextMode where
  | plain (high : Option Nat)
  /-- Behind a backslash. -/
  | escaped (high : Option Nat)
  /-- Among the digits of an escape: those still to come, and the value of those read. -/
  | digits (left value : Nat) (high : Option Nat)

/-- A reader inside quotes: the characters read, latest first, and whether all are whole. -/
structure TextState where
  mode : TextMode
  read : List Char
  whole : Bool

namespace TextState

def start : TextState := ⟨.plain none, [], true⟩

/-- A character is complete. A first half before it stays alone. -/
def push (state : TextState) (high : Option Nat) (c : Char) : TextState :=
  ⟨.plain none, c :: state.read, state.whole && high.isNone⟩

/-- A unit given by digits is complete. -/
def pushUnit (state : TextState) (high : Option Nat) (unit : Nat) : TextState :=
  if 0xD800 ≤ unit ∧ unit < 0xDC00 then
    ⟨.plain (some unit), state.read, state.whole && high.isNone⟩
  else if 0xDC00 ≤ unit ∧ unit < 0xE000 then
    match high with
    | some first =>
      ⟨.plain none, Char.ofNat (0x10000 + (first - 0xD800) * 0x400 + (unit - 0xDC00)) :: state.read,
        state.whole⟩
    | none => ⟨.plain none, state.read, false⟩
  else state.push high (Char.ofNat unit)

/-- Takes one more character, the closing quote excepted. -/
def step (state : TextState) (c : Char) : Option TextState :=
  match state.mode with
  | .plain high =>
    if c = '\\' then some { state with mode := .escaped high }
    else if c.toNat < 32 then none
    else some (state.push high c)
  | .escaped high =>
    if c = 'u' then some { state with mode := .digits 3 0 high }
    else (shortEscape? c).map (state.push high)
  | .digits left value high =>
    (hexValue? c).map fun digit =>
      match left with
      | 0 => state.pushUnit high (value * 16 + digit)
      | left + 1 => { state with mode := .digits left (value * 16 + digit) high }

/-- The text read, if all its characters are whole. -/
def finish (state : TextState) (high : Option Nat) : Option String :=
  if state.whole && high.isNone then some (String.ofList state.read.reverse) else none

end TextState

/-- Reads up to the closing quote. The answer has the text, if it is one, and what follows. -/
def readTextFrom (state : TextState) : List Char → Option (Option String × List Char)
  | [] => none
  | c :: rest =>
    match state.mode, c with
    | .plain high, '"' => some (state.finish high, rest)
    | _, _ =>
      match state.step c with
      | some state => readTextFrom state rest
      | none => none

/-- Reads a text behind its opening quote. -/
def readText (cs : List Char) : Option (Option String × List Char) := readTextFrom .start cs

end CallSift.Json

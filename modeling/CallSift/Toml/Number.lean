import CallSift.Json.Value
import CallSift.Toml.Text

/-!
# Numbers and dates of TOML

Integers come in four bases and have 64 bits; digits may be grouped by
underscores. Read, an integer is the token of its decimal digits, so that every
spelling of one number is one token. Floats and dates keep their spelling.
-/
namespace CallSift.Toml

open Json (Value)

def isDigit (c : Char) : Bool := '0' ≤ c && c ≤ '9'

/-- Digits with single underscores between them, at least one digit. The answer leaves the
underscores out. -/
def readGrouped (digit : Char → Bool) (read : List Char) :
    List Char → Option (List Char × List Char)
  | [] => if read.isEmpty then none else some (read.reverse, [])
  | [c] => if digit c then some ((c :: read).reverse, []) else
      if read.isEmpty then none else if c = '_' then none else some (read.reverse, [c])
  | c :: d :: rest =>
    if digit c then readGrouped digit (c :: read) (d :: rest)
    else if read.isEmpty then none
    else if c = '_' then if digit d then readGrouped digit (d :: read) rest else none
    else some (read.reverse, c :: d :: rest)

/-- The number that digits of a base stand for. -/
def valueOf (base : Nat) (digits : List Char) : Nat :=
  digits.foldl (fun value c => value * base + (Json.hexValue? c).getD 0) 0

/-- The token of an integer, unless it takes more than 64 bits. -/
def integerToken? (n : Int) : Option Value :=
  if -9223372036854775808 ≤ n ∧ n ≤ 9223372036854775807 then some (.ofInt n) else none

/-- The digits of a base that a letter behind a zero announces. -/
def baseOf? : Char → Option (Nat × (Char → Bool))
  | 'x' => some (16, fun c => (Json.hexValue? c).isSome)
  | 'o' => some (8, fun c => '0' ≤ c && c ≤ '7')
  | 'b' => some (2, fun c => c = '0' || c = '1')
  | _ => none

/-! ## Decimal numbers -/

/-- A sign in front. -/
def readSign : List Char → List Char × List Char
  | '+' :: rest => (['+'], rest)
  | '-' :: rest => (['-'], rest)
  | cs => ([], cs)

/-- The whole part of a decimal number: a zero alone, or digits that begin with another. -/
def readWhole : List Char → Option (List Char × List Char)
  | '0' :: rest => some (['0'], rest)
  | cs => readGrouped isDigit [] cs

/-- A point and digits; nothing at all is a fraction too. -/
def readFraction : List Char → Option (List Char × List Char)
  | '.' :: rest => readGrouped isDigit [] rest
  | cs => some ([], cs)

/-- The letter e of either case, a sign and digits; `none` for the exponent when there is none. -/
def readExponent (cs : List Char) : Option (Option Int × List Char) :=
  match cs with
  | c :: rest =>
    if c = 'e' ∨ c = 'E' then
      let (sign, rest) := readSign rest
      (readGrouped isDigit [] rest).map fun (digits, rest) =>
        (some (if sign = ['-'] then -(valueOf 10 digits) else valueOf 10 digits), rest)
    else some (none, cs)
  | [] => some (none, cs)

/-- From here on a number rounds to infinity: half a unit in the last place above the largest
one with 64 bits. -/
def overflowBound : Nat := 1 <<< 1024 - 1 <<< 970

/-- Digits with a decimal exponent round to infinity. -/
def overflows (digits : List Char) (exponent : Int) : Bool :=
  let significant := digits.dropWhile (· = '0')
  let places := significant.length + exponent
  if significant.isEmpty ∨ places < 309 then false
  else if 309 < places then true
  else
    let value := valueOf 10 significant
    if 0 ≤ exponent then overflowBound ≤ value * Nat.pow 10 exponent.toNat
    else overflowBound * Nat.pow 10 (-exponent).toNat ≤ value

/-- Reads a decimal integer or a float. A float above all others is refused unless it is
negative. -/
def readDecimal (cs : List Char) : Option (Value × List Char) := do
  let (sign, rest) := readSign cs
  let (whole, rest) ← readWhole rest
  let (fraction, rest) ← readFraction rest
  let (exponent, rest) ← readExponent rest
  if fraction.isEmpty && exponent.isNone then
    let value : Int := valueOf 10 whole
    let token ← integerToken? (if sign = ['-'] then -value else value)
    return (token, rest)
  else if sign ≠ ['-'] && overflows (whole ++ fraction) (exponent.getD 0 - fraction.length) then
    none
  else
    return (.token (String.ofList (whole ++ '.' :: fraction)), rest)

/-- Reads the words for no number and for infinity, behind a sign. -/
def readSpecial (cs : List Char) : Option (Value × List Char) :=
  match (readSign cs).2 with
  | 'i' :: 'n' :: 'f' :: rest => some (.token "inf", rest)
  | 'n' :: 'a' :: 'n' :: rest => some (.token "nan", rest)
  | _ => none

/-! ## Dates and times -/

/-- Exactly as many digits as wanted, with their value. -/
def readFixed (count : Nat) (cs : List Char) : Option (Nat × List Char) :=
  let digits := cs.take count
  if digits.length = count ∧ digits.all isDigit then some (valueOf 10 digits, cs.drop count)
  else none

/-- Two digits within bounds. -/
def readTwoDigits (low high : Nat) (cs : List Char) : Option (List Char) :=
  match readFixed 2 cs with
  | some (value, rest) => if low ≤ value ∧ value ≤ high then some rest else none
  | none => none

def dropChar? (c : Char) : List Char → Option (List Char)
  | d :: rest => if c = d then some rest else none
  | [] => none

def daysIn (year month : Nat) : Nat :=
  if month = 2 then
    if year % 4 = 0 ∧ (year % 100 ≠ 0 ∨ year % 400 = 0) then 29 else 28
  else if month ∈ [4, 6, 9, 11] then 30
  else 31

/-- Reads a date. -/
def readDate (cs : List Char) : Option (List Char) := do
  let (year, rest) ← readFixed 4 cs
  let rest ← dropChar? '-' rest
  let (month, rest) ← readFixed 2 rest
  if month = 0 ∨ 12 < month then none
  let rest ← dropChar? '-' rest
  readTwoDigits 1 (daysIn year month) rest

/-- Reads a fraction of a second. -/
def dropFraction : List Char → Option (List Char)
  | '.' :: c :: rest => if isDigit c then some (rest.dropWhile isDigit) else none
  | '.' :: [] => none
  | cs => some cs

/-- Reads a time of day. -/
def readTime (cs : List Char) : Option (List Char) := do
  let rest ← readTwoDigits 0 23 cs
  let rest ← dropChar? ':' rest
  let rest ← readTwoDigits 0 59 rest
  let rest ← dropChar? ':' rest
  let rest ← readTwoDigits 0 60 rest
  dropFraction rest

/-- Reads a distance from universal time; nothing at all will do. -/
def readOffset (cs : List Char) : Option (List Char) :=
  match cs with
  | c :: rest =>
    if c = 'Z' ∨ c = 'z' then some rest
    else if c = '+' ∨ c = '-' then do
      let rest ← readTwoDigits 0 23 rest
      let rest ← dropChar? ':' rest
      readTwoDigits 0 59 rest
    else some cs
  | [] => some cs

/-- Four digits and a dash begin a date. -/
def beginsDate (cs : List Char) : Bool :=
  match readFixed 4 cs with
  | some (_, '-' :: _) => true
  | _ => false

/-- Two digits up to 23 and a colon begin a time. -/
def beginsTime (cs : List Char) : Bool :=
  match readTwoDigits 0 23 cs with
  | some (':' :: _) => true
  | _ => false

/-- Reads a date with or without a time of day. -/
def readDateTime (cs : List Char) : Option (List Char) := do
  let rest ← readDate cs
  match rest with
  | c :: time =>
    if (c = 'T' ∨ c = 't' ∨ c = ' ') ∧ beginsTime time then
      let rest ← readTime time
      readOffset rest
    else some rest
  | [] => some []

/-- Reads any number or date. -/
def readNumber (cs : List Char) : Option (Value × List Char) :=
  if beginsDate cs then (readDateTime cs).map (.token "date", ·)
  else if beginsTime cs then (readTime cs).map (.token "time", ·)
  else
    match readSpecial cs with
    | some special => some special
    | none =>
      match cs with
      | '0' :: letter :: rest =>
        match baseOf? letter with
        | some (base, digit) => do
          let (digits, rest) ← readGrouped digit [] rest
          let token ← integerToken? (valueOf base digits)
          return (token, rest)
        | none => readDecimal cs
      | _ => readDecimal cs

end CallSift.Toml

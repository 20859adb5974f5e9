/-!
# Deflated data

A deflated stream is a row of blocks: stored bytes, or symbols in a fixed or in
an announced prefix code. A symbol is a byte, a copy of bytes written before, or
the end of its block. Bits are taken from each byte lowest first.

* `PrefixCode.ofLengths?` makes the code in which symbols have given lengths.
* `inflate` decodes a stream as far as it goes, and answers how it ended.
-/
namespace CallSift.Deflate

/-- Why a stream cannot be decoded further. -/
inductive Stuck where
  /-- Bits are missing. -/
  | truncated
  /-- The bits mean nothing. -/
  | corrupt
  deriving DecidableEq, Repr

/-! ## Bits -/

/-- The bit at a position, counted from the lowest bit of the first byte. -/
def bit (data : ByteArray) (position : Nat) : Except Stuck Nat :=
  match data[position / 8]? with
  | some byte => .ok ((byte.toNat.testBit (position % 8)).toNat)
  | none => .error .truncated

/-- A number of so many bits, the lowest first. -/
def bits (data : ByteArray) (position : Nat) : Nat → Except Stuck Nat
  | 0 => .ok 0
  | count + 1 => do
    let low ← bit data position
    let high ← bits data (position + 1) count
    return low + 2 * high

/-! ## Prefix codes -/

/-- A canonical code: how many symbols there are of each length from one on, and the symbols in the
order of their codes. -/
structure PrefixCode where
  counts : List Nat
  symbols : Array Nat

/-- Longest code of a symbol. -/
def longestCode : Nat := 15

namespace PrefixCode

/-- The lengths that a code may have. -/
def levels : List Nat := (List.range longestCode).map (· + 1)

/-- Codes of the longest length in all. -/
def space : Nat := 1 <<< longestCode

/-- How many codes of the longest length begin with the codes that are used. -/
def filled (counts : List Nat) : Nat :=
  (levels.zip counts).foldl
    (fun filled (level, count) => filled + count <<< (longestCode - level)) 0

/-- No code begins with another, and no bits are without a code. -/
def isComplete (counts : List Nat) : Bool := filled counts == space

/-- There is no code, or a single one of length one. -/
def isTrivial (counts : List Nat) : Bool :=
  counts.head?.any (· ≤ 1) && counts.tail.all (· == 0)

/-- The symbols in the order of their codes: shorter codes first, then as they are numbered. -/
def inCodeOrder (lengths : List Nat) : List Nat :=
  levels.flatMap fun level =>
    (lengths.zipIdx.filter fun (length, _) => length == level).map (·.2)

/-- The code in which symbol `i` has the length at `i`; zero stands for no code. -/
def ofLengths? (lengths : List Nat) : Option PrefixCode :=
  let counts := levels.map fun level => lengths.count level
  if isComplete counts || isTrivial counts then some ⟨counts, (inCodeOrder lengths).toArray⟩
  else none

/-- Decodes one symbol. `code` are the bits so far, `first` is the first code of their length and
`index` the place of its symbol. -/
def decodeFrom (code : PrefixCode) (data : ByteArray) (value first index position : Nat) :
    List Nat → Except Stuck (Nat × Nat)
  | [] => .error .corrupt
  | count :: longer => do
    let value := 2 * value + (← bit data position)
    if value < first + count then
      match code.symbols[index + (value - first)]? with
      | some symbol => return (symbol, position + 1)
      | none => throw .corrupt
    else
      decodeFrom code data value (2 * (first + count)) (index + count) (position + 1) longer

/-- The symbol at a position, and the position behind it. -/
def decode (code : PrefixCode) (data : ByteArray) (position : Nat) : Except Stuck (Nat × Nat) :=
  decodeFrom code data 0 0 0 position code.counts

end PrefixCode

/-! ## Symbols -/

/-- Smallest length and number of extra bits of the symbols for copies. -/
def copyLengths : List (Nat × Nat) :=
  [(3, 0), (4, 0), (5, 0), (6, 0), (7, 0), (8, 0), (9, 0), (10, 0), (11, 1), (13, 1), (15, 1),
   (17, 1), (19, 2), (23, 2), (27, 2), (31, 2), (35, 3), (43, 3), (51, 3), (59, 3), (67, 4),
   (83, 4), (99, 4), (115, 4), (131, 5), (163, 5), (195, 5), (227, 5), (258, 0)]

/-- Smallest distance and number of extra bits of the symbols for distances. -/
def copyDistances : List (Nat × Nat) :=
  [(1, 0), (2, 0), (3, 0), (4, 0), (5, 1), (7, 1), (9, 2), (13, 2), (17, 3), (25, 3), (33, 4),
   (49, 4), (65, 5), (97, 5), (129, 6), (193, 6), (257, 7), (385, 7), (513, 8), (769, 8),
   (1025, 9), (1537, 9), (2049, 10), (3073, 10), (4097, 11), (6145, 11), (8193, 12), (12289, 12),
   (16385, 13), (24577, 13)]

/-- The number that a symbol of a table stands for with its extra bits, and the position behind
them. -/
def extended (table : List (Nat × Nat)) (symbol : Nat) (data : ByteArray) (position : Nat) :
    Except Stuck (Nat × Nat) :=
  match table[symbol]? with
  | none => .error .corrupt
  | some (least, extra) => do
    let more ← bits data position extra
    return (least + more, position + extra)

/-- The byte that stands a distance before the end. All bytes before the first are zero. -/
def byteBack (output : ByteArray) (distance : Nat) : UInt8 :=
  if distance ≤ output.size then (output[output.size - distance]?).getD 0 else 0

/-- Appends bytes that stand a distance before the end, one after another. -/
def copyBack (output : ByteArray) (distance : Nat) : Nat → ByteArray
  | 0 => output
  | count + 1 => copyBack (output.push (byteBack output distance)) distance count

/-- Output so far, the position reached, and why it goes no further, if so. -/
structure Progress where
  output : ByteArray
  position : Nat
  stuck : Option Stuck

/-- Decodes the symbols of a block up to its end. -/
def symbols (literals distances : PrefixCode) (data : ByteArray) :
    Nat → ByteArray → Nat → Progress
  | 0, output, position => ⟨output, position, some .corrupt⟩
  | fuel + 1, output, position =>
    match literals.decode data position with
    | .error stuck => ⟨output, position, some stuck⟩
    | .ok (symbol, next) =>
      if symbol < 256 then
        symbols literals distances data fuel (output.push (UInt8.ofNat symbol)) next
      else if symbol = 256 then ⟨output, next, none⟩
      else
        let copy : Except Stuck (Nat × Nat × Nat) := do
          let (length, next) ← extended copyLengths (symbol - 257) data next
          let (symbol, next) ← distances.decode data next
          let (distance, next) ← extended copyDistances symbol data next
          return (length, distance, next)
        match copy with
        | .error stuck => ⟨output, position, some stuck⟩
        | .ok (length, distance, next) =>
          symbols literals distances data fuel (copyBack output distance length) next

/-! ## Announced codes -/

/-- Order in which the lengths of the code for lengths stand. -/
def lengthOrder : List Nat := [16, 17, 18, 0, 8, 7, 9, 6, 10, 5, 11, 4, 12, 3, 13, 2, 14, 1, 15]

/-- The lengths of the code for lengths, of which so many are given. -/
def lengthCodeLengths (data : ByteArray) (position count : Nat) : Except Stuck (List Nat) := do
  let given ← (List.range count).mapM fun i => bits data (position + 3 * i) 3
  return (List.range 19).map fun symbol => ((lengthOrder.zip given).lookup symbol).getD 0

/-- Reads so many lengths behind those read, latest first. -/
def readLengths (code : PrefixCode) (data : ByteArray) (wanted : Nat) :
    Nat → List Nat → Nat → Except Stuck (List Nat × Nat)
  | 0, _, _ => .error .corrupt
  | fuel + 1, read, position =>
    if read.length = wanted then .ok (read.reverse, position)
    else if wanted < read.length then .error .corrupt
    else do
      let (symbol, next) ← code.decode data position
      if symbol < 16 then readLengths code data wanted fuel (symbol :: read) next
      else if symbol = 16 then
        match read with
        | [] => throw .corrupt
        | last :: _ =>
          let more ← bits data next 2
          readLengths code data wanted fuel (List.replicate (3 + more) last ++ read) (next + 2)
      else if symbol = 17 then
        let more ← bits data next 3
        readLengths code data wanted fuel (List.replicate (3 + more) 0 ++ read) (next + 3)
      else
        let more ← bits data next 7
        readLengths code data wanted fuel (List.replicate (11 + more) 0 ++ read) (next + 7)

/-- The codes that a block announces, and the position behind the announcement. -/
def announcedCodes (data : ByteArray) (position : Nat) :
    Except Stuck (PrefixCode × PrefixCode × Nat) := do
  let literalCount := (← bits data position 5) + 257
  let distanceCount := (← bits data (position + 5) 5) + 1
  let lengthCount := (← bits data (position + 10) 4) + 4
  if 286 < literalCount ∨ 30 < distanceCount then throw .corrupt
  let lengthLengths ← lengthCodeLengths data (position + 14) lengthCount
  match PrefixCode.ofLengths? lengthLengths with
  | none => throw .corrupt
  | some code =>
    if !PrefixCode.isComplete code.counts then throw .corrupt
    let wanted := literalCount + distanceCount
    let (lengths, next) ←
      readLengths code data wanted (wanted + 1) [] (position + 14 + 3 * lengthCount)
    if lengths.getD 256 0 = 0 then throw .corrupt
    match PrefixCode.ofLengths? (lengths.take literalCount),
      PrefixCode.ofLengths? (lengths.drop literalCount) with
    | some literals, some distances => return (literals, distances, next)
    | _, _ => throw .corrupt

/-- The fixed code of bytes, ends and copies. -/
def fixedLiterals : List Nat :=
  List.replicate 144 8 ++ List.replicate 112 9 ++ List.replicate 24 7 ++ List.replicate 8 8

/-- The fixed code of distances. -/
def fixedDistances : List Nat := List.replicate 32 5

/-! ## Blocks -/

/-- Copies the bytes of a stored block, which begins at the next whole byte. -/
def stored (data output : ByteArray) (position : Nat) : Progress :=
  let start := (position + 7) / 8
  match bits data (8 * start) 16, bits data (8 * start + 16) 16 with
  | .ok length, .ok complement =>
    if length + complement + 1 ≠ UInt16.size then ⟨output, position, some .corrupt⟩
    else
      let stop := start + 4 + length
      ⟨output ++ data.extract (start + 4) stop, 8 * stop,
        if data.size < stop then some .truncated else none⟩
  | _, _ => ⟨output, position, some .truncated⟩

/-- Decodes a block behind its header of three bits. -/
def block (data output : ByteArray) (kind position : Nat) : Progress :=
  let fuel := 8 * data.size + 1
  match kind with
  | 0 => stored data output position
  | 1 =>
    match PrefixCode.ofLengths? fixedLiterals, PrefixCode.ofLengths? fixedDistances with
    | some literals, some distances => symbols literals distances data fuel output position
    | _, _ => ⟨output, position, some .corrupt⟩
  | 2 =>
    match announcedCodes data position with
    | .ok (literals, distances, next) => symbols literals distances data fuel output next
    | .error stuck => ⟨output, position, some stuck⟩
  | _ => ⟨output, position, some .corrupt⟩

/-- Decodes blocks up to the last one. -/
def blocks (data : ByteArray) : Nat → ByteArray → Nat → Progress
  | 0, output, position => ⟨output, position, some .corrupt⟩
  | fuel + 1, output, position =>
    match bits data position 1, bits data (position + 1) 2 with
    | .ok last, .ok kind =>
      let progress := block data output kind (position + 3)
      if last = 1 ∨ progress.stuck.isSome then progress
      else blocks data fuel progress.output progress.position
    | _, _ => ⟨output, position, some .truncated⟩

/-- Bytes that a decoder hands out at once. -/
def windowSize : Nat := 32768

/-- Decodes the stream that begins at a byte. What a decoder has not handed out when it meets
corrupt bits is lost. -/
def inflate (data : ByteArray) (start : Nat) : Progress :=
  let progress := blocks data (8 * data.size + 1) .empty (8 * start)
  match progress.stuck with
  | some .corrupt =>
    { progress with
      output := progress.output.extract 0 (progress.output.size / windowSize * windowSize) }
  | _ => progress

end CallSift.Deflate

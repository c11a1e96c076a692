/-!
# Inflating

Decompression of Deflate streams. A stream is a sequence of bits, the least significant bit of a byte first,
and consists of blocks: bytes that are stored as they are, or items behind codes of varying length. An item
is a byte or a copy of bytes that were put out before. Bytes are taken one by one and only when a bit of them
is needed, since a fault is reported with the number of bytes taken.
-/

namespace Datapack.Archive.Inflate

/-- Why a stream cannot be read on. -/
inductive Fault where
  /-- The bits mean nothing; so many bytes were taken. -/
  | corrupt (offset : Nat)
  /-- The bytes end inside the stream. -/
  | truncated
  deriving DecidableEq, Repr

/-! ## Bits -/

/-- What is left of a stream. -/
structure Source where
  /-- The bits of the bytes taken that are not used yet. -/
  bits : List Bool := []
  /-- The number of bytes taken. -/
  offset : Nat := 0
  /-- The bytes not taken yet. -/
  bytes : List UInt8

abbrev Reader := StateT Source (Except Fault)

def bitsOf (b : UInt8) : List Bool := (List.range 8).map b.toNat.testBit

/-- The value of bits with the least significant first. -/
def valueOf (bits : List Bool) : Nat := bits.foldr (fun b n => b.toNat + 2 * n) 0

def corrupt {α : Type} : Reader α := fun s => .error (.corrupt s.offset)

/-- Take bytes until there are `count` bits. -/
def fill (count : Nat) : List Bool → Nat → List UInt8 → Except Fault Source
  | bits, offset, bytes =>
    if count ≤ bits.length then .ok { bits, offset, bytes }
    else
      match bytes with
      | [] => .error .truncated
      | b :: bytes => fill count (bits ++ bitsOf b) (offset + 1) bytes

def takeBits (count : Nat) : Reader (List Bool) := fun s => do
  let s ← fill count s.bits s.offset s.bytes
  return (s.bits.take count, { s with bits := s.bits.drop count })

def number (count : Nat) : Reader Nat := return valueOf (← takeBits count)

def numbers (width : Nat) : Nat → Reader (List Nat)
  | 0 => return []
  | count + 1 => return (← number width) :: (← numbers width count)

/-! ## Codes -/

/-- A code in its canonical form: shorter bit sequences come before longer ones, and those of one length stand
for symbols in order. -/
structure Code where
  /-- The number of symbols for each length from one on. -/
  counts : List Nat
  /-- The symbols in the order of their bit sequences. -/
  symbols : List Nat
  /-- The number of bits that are taken before a symbol is looked up. -/
  least : Nat

def maxLength : Nat := 15

/-- The code in which each symbol has a length; zero stands for a symbol without a bit sequence. Every sequence
of bits must begin with one of the code, except that a code may be empty or consist of a single bit. -/
def Code.ofLengths? (lengths : List Nat) : Option Code :=
  let used := lengths.filter (· ≠ 0)
  let weight := used.foldl (fun sum n => sum + 1 <<< (maxLength - n)) 0
  if weight = 1 <<< maxLength || used = [] || used = [1] then
    some
      { counts := (List.range maxLength).map fun n => lengths.count (n + 1)
        symbols := (List.range maxLength).flatMap fun n =>
          (lengths.zipIdx.filter (·.1 = n + 1)).map (·.2)
        least := used.min?.getD 0 }
  else none

/-- The symbol at the start of some bits, with its length. The bits so far make up the `rank`-th sequence that
is not shorter. -/
def lookUp : List Nat → List Nat → Nat → List Bool → Option (Nat × Nat)
  | count :: counts, symbols, rank, bit :: bits =>
    let rank := 2 * rank + bit.toNat
    if rank < count then symbols[rank]?.map (·, 1)
    else (lookUp counts (symbols.drop count) (rank - count) bits).map fun (symbol, n) => (symbol, n + 1)
  | _, _, _, _ => none

/-- What the bits at hand say about the next symbol. -/
inductive Sight where
  | symbol (symbol length : Nat)
  | wants (count : Nat)
  | nothing

/-- Look for a symbol at the start of at least `wanted` bits. The bits that are missing count as zeros, so that
more of them may be wanted than the symbol has. -/
def Code.look (c : Code) (wanted : Nat) (bits : List Bool) : Sight :=
  if bits.length < wanted then .wants wanted
  else
    match lookUp c.counts c.symbols 0 (bits ++ List.replicate maxLength false) with
    | none => .nothing
    | some (symbol, n) => if n ≤ bits.length then .symbol symbol n else .wants n

/-- Take bytes until a symbol is found. -/
def Code.findFrom (c : Code) : Nat → List Bool → Nat → List UInt8 → Except Fault (Nat × Source)
  | wanted, bits, offset, bytes =>
    match c.look wanted bits with
    | .nothing => .error (.corrupt offset)
    | .symbol symbol n => .ok (symbol, { bits := bits.drop n, offset, bytes })
    | .wants n =>
      match bytes with
      | [] => .error .truncated
      | b :: bytes => c.findFrom n (bits ++ bitsOf b) (offset + 1) bytes

def Code.next (c : Code) : Reader Nat := fun s => c.findFrom c.least s.bits s.offset s.bytes

/-- The code of bytes and lengths where a block brings none. -/
def fixedLengths : List Nat :=
  List.replicate 144 8 ++ List.replicate 112 9 ++ List.replicate 24 7 ++ List.replicate 8 8

/-- The next distance where a block brings no code for it. -/
def fixedDistance : Reader Nat := return valueOf (← takeBits 5).reverse

/-- The order in which the lengths of the code for lengths are given. -/
def lengthOrder : List Nat := [16, 17, 18, 0, 8, 7, 9, 6, 10, 5, 11, 4, 12, 3, 13, 2, 14, 1, 15]

/-- What a symbol of the code for lengths stands for: a length, and how many times it is given. -/
def repetition (symbol : Nat) (last? : Option Nat) : Reader (Nat × Nat) :=
  match symbol with
  | 16 =>
    match last? with
    | none => corrupt
    | some last => return (last, 3 + (← number 2))
  | 17 => return (0, 3 + (← number 3))
  | 18 => return (0, 11 + (← number 7))
  | n => return (n, 1)

/-- Read as many lengths as are missing behind those so far, which are given newest first. Every step gives one
at least. -/
def readLengths (c : Code) : Nat → Nat → List Nat → Reader (List Nat)
  | 0, _, lengths => return lengths.reverse
  | fuel + 1, missing, lengths =>
    if missing = 0 then return lengths.reverse
    else do
      let (length, times) ← repetition (← c.next) lengths.head?
      if missing < times then corrupt
      readLengths c fuel (missing - times) (List.replicate times length ++ lengths)

def endSymbol : Nat := 256

/-- The codes that a block brings: one for bytes and lengths, and one for distances. A block ends with its end
symbol, so that as many bits as this has can be taken for every symbol. -/
def readCodes : Reader (Code × Code) := do
  let n ← number 14
  let literals := n % 32 + 257
  let distances := n / 32 % 32 + 1
  if 286 < literals || 30 < distances then corrupt
  let given ← numbers 3 (n / 1024 + 4)
  let lengthOf (symbol : Nat) := ((lengthOrder.zip given).lookup symbol).getD 0
  let some c := Code.ofLengths? ((List.range lengthOrder.length).map lengthOf) | corrupt
  let lengths ← readLengths c (literals + distances) (literals + distances) []
  let some code := Code.ofLengths? (lengths.take literals) | corrupt
  let some distanceCode := Code.ofLengths? (lengths.drop literals) | corrupt
  return ({ code with least := max code.least (lengths[endSymbol]?.getD 0) }, distanceCode)

/-! ## Items -/

inductive Item where
  | byte (b : UInt8)
  | copy (length distance : Nat)
  | stop

/-- The smallest length for each symbol behind the end symbol, and the number of bits that add to it. -/
def lengthTable : List (Nat × Nat) := [
  (3, 0), (4, 0), (5, 0), (6, 0), (7, 0), (8, 0), (9, 0), (10, 0), (11, 1), (13, 1), (15, 1), (17, 1),
  (19, 2), (23, 2), (27, 2), (31, 2), (35, 3), (43, 3), (51, 3), (59, 3), (67, 4), (83, 4), (99, 4), (115, 4),
  (131, 5), (163, 5), (195, 5), (227, 5), (258, 0)]

def distanceOf (symbol : Nat) : Reader Nat :=
  if symbol < 4 then return symbol + 1
  else if symbol < 30 then do
    let width := (symbol - 2) / 2
    return (2 + symbol % 2) <<< width + 1 + (← number width)
  else corrupt

def readItem (c : Code) (distance : Reader Nat) : Reader Item := do
  let symbol ← c.next
  if symbol < endSymbol then return .byte (UInt8.ofNat symbol)
  else if symbol = endSymbol then return .stop
  else
    let some (least, width) := lengthTable[symbol - endSymbol - 1]? | corrupt
    let length := least + (← number width)
    return .copy length (← distanceOf (← distance))

/-! ## Output -/

def windowSize : Nat := 32 * 1024

/-- What was put out. It is handed on whenever another `windowSize` bytes are full. -/
structure Output where
  /-- All bytes, newest first. -/
  history : List UInt8 := []
  size : Nat := 0
  /-- The bytes that are not handed on yet, newest first. -/
  pending : List UInt8 := []
  /-- The blocks that were handed on, newest first. -/
  blocks : List (List UInt8) := []

namespace Output

def flush (o : Output) : Output :=
  if o.pending.isEmpty then o else { o with pending := [], blocks := o.pending.reverse :: o.blocks }

def put (o : Output) (b : UInt8) : Output :=
  let next := { o with history := b :: o.history, size := o.size + 1, pending := b :: o.pending }
  if next.size % windowSize = 0 then next.flush else next

/-- Put out bytes once more that were put out a distance before; they may overlap with the copy. -/
def copy (o : Output) (distance : Nat) : Nat → Output
  | 0 => o
  | length + 1 => (o.put (o.history[distance - 1]?.getD 0)).copy distance length

end Output

/-! ## Blocks -/

/-- Put out the items of a block. Each takes at least one bit, of which there are fewer than `fuel`. -/
def putItems (c : Code) (distance : Reader Nat) : Nat → Output → Source → Output × Except Fault Source
  | 0, o, _ => (o, .error .truncated)
  | fuel + 1, o, s =>
    match readItem c distance s with
    | .error fault => (o, .error fault)
    | .ok (.stop, s) => (o, .ok s)
    | .ok (.byte b, s) => putItems c distance fuel (o.put b) s
    | .ok (.copy length back, s) =>
      if min o.size windowSize < back then (o, .error (.corrupt s.offset))
      else putItems c distance fuel (o.copy back length) s

/-- Put out a block of stored bytes, which starts with a byte of its own. An empty one hands on what is pending,
unless it is the last. -/
def putStored (isLast : Bool) (o : Output) (s : Source) : Output × Except Fault Source :=
  match s.bytes with
  | l₀ :: l₁ :: c₀ :: c₁ :: bytes =>
    let length := l₀.toNat + 256 * l₁.toNat
    let offset := s.offset + 4
    if length + c₀.toNat + 256 * c₁.toNat ≠ 0xffff then (o, .error (.corrupt offset))
    else if length = 0 then (if isLast then o else o.flush, .ok { offset, bytes })
    else
      let o := (bytes.take length).foldl Output.put o
      if bytes.length < length then (o, .error .truncated)
      else (o, .ok { offset := offset + length, bytes := bytes.drop length })
  | _ => (o, .error .truncated)

/-- Put out a block, whose kind and whether it is the last were read. -/
def putBlock (kind : Nat) (isLast : Bool) (o : Output) (s : Source) : Output × Except Fault Source :=
  let fuel := s.bits.length + 8 * s.bytes.length + 1
  match kind with
  | 0 => putStored isLast o s
  | 1 =>
    match Code.ofLengths? fixedLengths with
    | none => (o, .error (.corrupt s.offset))
    | some c => putItems c fixedDistance fuel o s
  | 2 =>
    match readCodes s with
    | .error fault => (o, .error fault)
    | .ok ((c, distances), s) => putItems c distances.next fuel o s
  | _ => (o, .error (.corrupt s.offset))

/-- Put out blocks up to the last. Each takes at least one bit, of which there are fewer than `fuel`. -/
def putBlocks : Nat → Output → Source → Output × Option Fault
  | 0, o, _ => (o, some .truncated)
  | fuel + 1, o, s =>
    match number 3 s with
    | .error fault => (o, some fault)
    | .ok (n, s) =>
      let isLast := n % 2 = 1
      match putBlock (n / 2) isLast o s with
      | (o, .error fault) => (o, some fault)
      | (o, .ok s) => if isLast then (o, none) else putBlocks fuel o s

end Inflate

/-- Decompress a stream. The result is the bytes in the blocks in which they are handed on, the rest that comes
with the end, and why the stream cannot be read further. -/
def inflate (stream : List UInt8) : List (List UInt8) × List UInt8 × Option Inflate.Fault :=
  let (o, fault) := Inflate.putBlocks (8 * stream.length + 1) {} { bytes := stream }
  (o.blocks.reverse, o.pending.reverse, fault)

end Datapack.Archive

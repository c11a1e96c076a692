import Datapack.Archive.Inflate
import Datapack.Archive.Sha256
import Datapack.Text.Hash

/-!
# Zip archives

An archive ends with a record that says where its directory is; the directory has a header per file,
which says where the file is. `entries` reads the directory, `Entry.locate` finds a file and `Entry.content`
reads it; it is stored as it is or as a Deflate stream. Numbers are little-endian. Numbers that do not fit into
their fields stand in wide records beside them: one in front of the closing record, and one among the extra
fields of a header. The 32-bit check value of a file is the remainder of a polynomial division over bits, with
the least significant bit of a byte first.
-/

namespace Datapack.Archive.Crc32

/-- The divisor without its leading term, its bits in reverse. -/
def polynomial : UInt32 := 0xedb88320

def shiftBit (r : UInt32) : UInt32 :=
  if r &&& 1 = 1 then r >>> 1 ^^^ polynomial else r >>> 1

def addByte (r : UInt32) (b : UInt8) : UInt32 := Nat.repeat shiftBit 8 (r ^^^ b.toUInt32)

def checksum (bs : List UInt8) : UInt32 := ~~~(bs.foldl addByte 0xffffffff)

end Datapack.Archive.Crc32

namespace Datapack.Archive

inductive ReadFault where
  | malformed
  | unsupportedMethod
  | checksum
  /-- The bytes end inside a record or a file. -/
  | truncated
  /-- The bytes end before a record. -/
  | ended
  | negativeOffset
  /-- A compressed file means nothing before an offset of its stream. -/
  | corrupt (offset : Nat)
  deriving DecidableEq, Repr

def ReadFault.message : ReadFault → String
  | malformed => "zip: not a valid zip file"
  | unsupportedMethod => "zip: unsupported compression algorithm"
  | checksum => "zip: checksum error"
  | truncated => "unexpected EOF"
  | ended => "EOF"
  | negativeOffset => "bytes.Reader.ReadAt: negative offset"
  | corrupt offset => "flate: corrupt input before offset " ++ toString offset

def littleEndian (bs : List UInt8) : Nat := bs.foldr (fun b n => b.toNat + 256 * n) 0

def field (record : List UInt8) (offset width : Nat) : Nat :=
  littleEndian ((record.drop offset).take width)

/-- The marks at the start of the records. -/
def endSignature : List UInt8 := [0x50, 0x4b, 0x05, 0x06]

@[inherit_doc endSignature]
def wideEndSignature : List UInt8 := [0x50, 0x4b, 0x06, 0x06]

@[inherit_doc endSignature]
def locatorSignature : List UInt8 := [0x50, 0x4b, 0x06, 0x07]

@[inherit_doc endSignature]
def directorySignature : List UInt8 := [0x50, 0x4b, 0x01, 0x02]

@[inherit_doc endSignature]
def fileSignature : List UInt8 := [0x50, 0x4b, 0x03, 0x04]

@[inherit_doc endSignature]
def descriptorSignature : List UInt8 := [0x50, 0x4b, 0x07, 0x08]

/-- The length of the closing record without its comment. -/
def endLength : Nat := 22

def wideEndLength : Nat := 56

/-- The length of the record that says where the wide closing record is. -/
def locatorLength : Nat := 20

/-- The length of a directory header without its texts. -/
def directoryLength : Nat := 46

/-- The length of the header in front of a file without its texts. -/
def fileLength : Nat := 30

/-- The largest number of a field of two bytes; it says that the number stands elsewhere. -/
def full16 : Nat := 0xffff

/-- The largest number of a field of four bytes; it says that the number stands elsewhere. -/
def full32 : Nat := 0xffffffff

/-- Offsets are numbers below this one. -/
def offsetBound : Nat := 0x8000000000000000

/-- A number of eight bytes read as a signed offset. -/
def signedOffset (n : Int) : Int := (Int64.ofInt n).toInt

/-- How far from its end an archive is searched for the closing record. -/
def searchWindow : Nat := 65 * 1024

/-- The last place at which a closing record may start, with what follows. -/
def lastRecord? : List UInt8 → Option (List UInt8)
  | [] => none
  | b :: rest =>
    match lastRecord? rest with
    | some r => some r
    | none =>
      if endSignature.isPrefixOf (b :: rest) && endLength ≤ rest.length + 1 then some (b :: rest)
      else none

/-- What the closing record says about the directory. -/
structure EndRecord where
  /-- Where the record itself starts. -/
  place : Nat
  /-- The number of headers. -/
  count : Nat
  /-- The length of the directory. -/
  size : Nat
  /-- Where the directory starts, counted from the start of the archive. -/
  offset : Nat
  deriving DecidableEq

/-- Where the wide closing record starts, if a locator stands in front of the closing record. -/
def locateWide? (archive : List UInt8) (place : Nat) : Option Nat :=
  if place < locatorLength then none
  else
    let locator := (archive.drop (place - locatorLength)).take locatorLength
    let wide := field locator 8 8
    if locatorSignature.isPrefixOf locator && field locator 4 4 = 0 && field locator 16 4 = 1
        && wide < offsetBound then some wide
    else none

def readWideEnd (archive : List UInt8) (place : Nat) : Except ReadFault EndRecord :=
  let record := (archive.drop place).take wideEndLength
  if record.length < wideEndLength then .error .ended
  else if !wideEndSignature.isPrefixOf record then .error .malformed
  else .ok { place, count := field record 32 8, size := field record 40 8, offset := field record 48 8 }

/-- Replace a closing record whose fields are full by the wide one, if there is one. -/
def widen (archive : List UInt8) (r : EndRecord) : Except ReadFault EndRecord :=
  if r.count = full16 || r.size = full32 || r.offset = full32 then
    match locateWide? archive r.place with
    | some place => readWideEnd archive place
    | none => .ok r
  else .ok r

/-- The closing record of an archive; its comment must be complete. -/
def endRecord (archive : List UInt8) : Except ReadFault EndRecord := do
  let some record := lastRecord? (archive.drop (archive.length - searchWindow))
    | throw .malformed
  if record.length < endLength + field record 20 2 then throw .malformed
  let r ← widen archive
    { place := archive.length - record.length
      count := field record 10 2, size := field record 12 4, offset := field record 16 4 }
  if offsetBound ≤ r.size || offsetBound ≤ r.offset then throw .malformed
  return r

/-- The header of a file in the directory. -/
structure Entry where
  /-- The name of the file, which need not be a text. -/
  name : List UInt8
  isDirectory : Bool
  method : Nat
  checksum : UInt32
  /-- Whether a record with the check value follows the file. -/
  hasDescriptor : Bool
  /-- The number of bytes the archive holds for the file. -/
  storedSize : Nat
  /-- The number of bytes of the file. -/
  size : Nat
  /-- Where the file starts. -/
  offset : Int
  deriving DecidableEq

/-- Whether the attributes of a header mark a directory; their meaning depends on the system that wrote
them. -/
def marksDirectory (system attributes : Nat) : Bool :=
  if system = 3 || system = 19 then attributes / 0x10000000 = 4
  else (system = 0 || system = 11 || system = 14) && attributes / 16 % 2 = 1

/-- The numbers of a header that may stand in wide fields. -/
structure HeaderNumbers where
  /-- The number of bytes of the file. -/
  size : Nat
  /-- The number of bytes the archive holds for the file. -/
  storedSize : Nat
  /-- Where the file starts. -/
  offset : Nat
  deriving DecidableEq

/-- Take the next wide number in place of a number that is full. -/
def nextWide (isFull : Bool) (n : Nat) (wide : List UInt8) : Except ReadFault (Nat × List UInt8) :=
  if !isFull then .ok (n, wide)
  else if wide.length < 8 then .error .malformed
  else .ok (field wide 0 8, wide.drop 8)

/-- Read a wide field. It holds the sizes whose narrow fields are full, and the offset as long as that is
full. -/
def HeaderNumbers.widen (narrow n : HeaderNumbers) (wide : List UInt8) :
    Except ReadFault HeaderNumbers := do
  let (size, wide) ← nextWide (narrow.size = full32) n.size wide
  let (storedSize, wide) ← nextWide (narrow.storedSize = full32) n.storedSize wide
  let (offset, _) ← nextWide (n.offset = full32) n.offset wide
  return { size, storedSize, offset }

/-- Read the wide fields among the extra fields of a header, at most `fuel` fields on. A field that
reaches beyond the end stops the search. -/
def HeaderNumbers.widenAll (narrow : HeaderNumbers) :
    Nat → HeaderNumbers → List UInt8 → Except ReadFault HeaderNumbers
  | 0, n, _ => .ok n
  | fuel + 1, n, extra =>
    let content := extra.drop 4
    let length := field extra 2 2
    if extra.length < 4 || content.length < length then .ok n
    else do
      let n ← if field extra 0 2 = 1 then narrow.widen n (content.take length) else .ok n
      narrow.widenAll fuel n (content.drop length)

/-- The header at the start of some bytes, and what follows it. -/
def readEntry (bs : List UInt8) : Except ReadFault (Entry × List UInt8) :=
  let head := bs.take directoryLength
  if head.isEmpty then .error .ended
  else if head.length < directoryLength then .error .truncated
  else if !directorySignature.isPrefixOf head then .error .malformed
  else
    let nameLength := field head 28 2
    let extraLength := field head 30 2
    let textLength := nameLength + extraLength + field head 32 2
    let rest := bs.drop directoryLength
    let texts := rest.take textLength
    if texts.isEmpty && textLength ≠ 0 then .error .ended
    else if texts.length < textLength then .error .truncated
    else do
      let name := texts.take nameLength
      let extra := (texts.drop nameLength).take extraLength
      let narrow : HeaderNumbers :=
        { size := field head 24 4, storedSize := field head 20 4, offset := field head 42 4 }
      let numbers ← narrow.widenAll (extraLength + 1) narrow extra
      let entry : Entry :=
        { name
          size := numbers.size
          storedSize := numbers.storedSize
          isDirectory :=
            name.getLast? = some 0x2f || marksDirectory (field head 5 1) (field head 38 4)
          method := field head 10 2
          checksum := UInt32.ofNat (field head 16 4)
          hasDescriptor := field head 8 2 / 8 % 2 = 1
          offset := signedOffset numbers.offset }
      return (entry, rest.drop textLength)

/-- The headers at the start of some bytes, at most `fuel` of them, and why no other follows. -/
def readEntries : Nat → List UInt8 → List Entry × ReadFault
  | 0, _ => ([], .ended)
  | fuel + 1, bs =>
    match readEntry bs with
    | .error e => ([], e)
    | .ok (entry, rest) =>
      let (entries, e) := readEntries fuel rest
      (entry :: entries, e)

/-- The headers of the directory that starts at a place, moved by a number of bytes. -/
def readDirectory (archive : List UInt8) (start : Nat) (shift : Int) : List Entry × ReadFault :=
  let (entries, e) := readEntries (archive.length + 1) (archive.drop start)
  (entries.map fun entry => { entry with offset := signedOffset (entry.offset + shift) }, e)

/-- The files of an archive. Bytes may stand in front of the archive: then all offsets count from where
the directory shows that it starts, unless a header stands where the directory would be without them. -/
def entries (archive : List UInt8) : Except ReadFault (List Entry) := do
  let r ← endRecord archive
  let start : Int := (r.place : Int) - r.size
  let shift := start - r.offset
  if start < 0 || archive.length ≤ start then throw .malformed
  let found :=
    if 0 < shift && (readEntry (archive.drop r.offset)).toBool then readDirectory archive r.offset 0
    else readDirectory archive start.toNat shift
  if found.2 = .ended || found.1.length % 0x10000 ≠ r.count % 0x10000 then throw found.2
  return found.1

/-- How the bytes of a file are kept: as they are, or as a Deflate stream. -/
def methods : List Nat := [0, 8]

/-- Where the bytes of a file start. -/
def Entry.locate (archive : List UInt8) (e : Entry) : Except ReadFault Nat := do
  if e.offset < 0 then throw .negativeOffset
  let start := e.offset.toNat
  let header := (archive.drop start).take fileLength
  if header.length < fileLength then throw .ended
  if !fileSignature.isPrefixOf header then throw .malformed
  if !methods.contains e.method then throw .unsupportedMethod
  return start + fileLength + field header 26 2 + field header 28 2

/-- What is wrong with the record behind a file that starts at a place. Its mark may be missing. -/
def Entry.descriptorFault (archive : List UInt8) (e : Entry) (start : Nat) : Option ReadFault :=
  let place := signedOffset (start + e.storedSize)
  if place < 0 then some .negativeOffset
  else
    let bytes := archive.drop place.toNat
    let record := if descriptorSignature.isPrefixOf bytes then bytes.drop 4 else bytes
    if record.length < 12 then some .truncated
    else if UInt32.ofNat (field record 0 4) ≠ e.checksum then some .checksum
    else none

/-- What is wrong with the complete bytes of a file that starts at a place. In a header that no record
follows, a check value of zero stands for none. -/
def Entry.checkFault (archive : List UInt8) (e : Entry) (start : Nat) (body : List UInt8) :
    Option ReadFault :=
  let wrong := Crc32.checksum body ≠ e.checksum
  if e.hasDescriptor then
    (e.descriptorFault archive start).or (if wrong then some .checksum else none)
  else if e.checksum ≠ 0 && wrong then some .checksum
  else none

/-- The bytes of a file in the order in which they are read. -/
structure Reads where
  blocks : List (List UInt8)
  /-- The bytes that are read together with the end. -/
  rest : List UInt8
  /-- Why nothing more can be read, if the file does not end here. -/
  fault : Option ReadFault

/-- The number of bytes that are read at once. -/
def blockSize : Nat := 32 * 1024

/-- The bytes of a file that is stored as it is. The end of an archive is noticed while a block is read, and the
end of a file only behind it. -/
def storedReads (body : List UInt8) (isComplete : Bool) : Reads :=
  let count := body.length / blockSize
  let blocks := Sha256.chunksOf blockSize count body
  let rest := body.drop (count * blockSize)
  if isComplete then { blocks := blocks ++ [rest], rest := [], fault := none }
  else { blocks, rest, fault := none }

/-- The bytes of a file that is compressed. -/
def inflatedReads (body : List UInt8) : Reads :=
  let (blocks, rest, fault) := inflate body
  { blocks, rest
    fault := fault.map fun
      | .corrupt offset => .corrupt offset
      | .truncated => .truncated }

def Entry.reads (archive : List UInt8) (e : Entry) (start : Nat) : Reads :=
  let body := (archive.drop start).take e.storedSize
  if e.method = 0 then storedReads body (body.length = e.storedSize) else inflatedReads body

/-- Files are read up to this number of bytes. What lies beyond is left out, and nothing is checked then. -/
def contentLimit : Nat := 64 * 1024 * 1024

/-- Keep what is read of a file, given what is kept already. A read that brings more bytes than the header says
is not kept, and neither is the last one if it brings too few; the complete bytes are checked. -/
def Entry.receive (e : Entry) (check : List UInt8 → Option ReadFault) (rest : List UInt8)
    (fault : Option ReadFault) : List UInt8 → List (List UInt8) → List UInt8 × Option ReadFault
  | kept, block :: blocks =>
    if contentLimit ≤ kept.length then (kept, none)
    else
      let part := block.take (contentLimit - kept.length)
      if e.size < kept.length + part.length then (kept, some .malformed)
      else e.receive check rest fault (kept ++ part) blocks
  | kept, [] =>
    if contentLimit ≤ kept.length then (kept, none)
    else
      let part := rest.take (contentLimit - kept.length)
      let all := kept ++ part
      if e.size < all.length then (kept, some .malformed)
      else if part.length < rest.length then (all, none)
      else
        match fault with
        | some fault => (all, some fault)
        | none => if all.length < e.size then (kept, some .truncated) else (all, check all)

/-- The content of a file whose bytes start at a place: what can be read, and what is wrong with it. -/
def Entry.content (archive : List UInt8) (e : Entry) (start : Nat) :
    List UInt8 × Option ReadFault :=
  let r := e.reads archive start
  e.receive (e.checkFault archive start) r.rest r.fault [] r.blocks

end Datapack.Archive

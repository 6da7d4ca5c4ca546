import Bilevel.Segment.Header
import Bilevel.Segment.Region

/-!
# Streams of segments

A stream is cut into segments, each a header and its data, without looking into the data. A segment
whose header contradicts itself is reported and passed over; when a header can't be read or the data
isn't there, the rest of the stream is lost.

In a file the segments follow a file header, and either each header is followed by its data or all
headers come before all data.
-/

namespace Bilevel

structure Segment where
  header : SegmentHeader
  data : Bytes
  deriving DecidableEq, Repr

/-- A piece of a stream. -/
inductive StreamItem where
  | segment (segment : Segment)
  /-- A segment that isn't valid, before others that may be. -/
  | invalid (header : SegmentHeader) (error : DecodeError)
  /-- The end of what can be read, with the header of the segment if there is one. -/
  | broken (header : Option SegmentHeader) (error : DecodeError)
  deriving DecidableEq, Repr

namespace Stream

/-- The smallest number of bytes in a segment header. -/
def minHeaderBytes : Nat := 11

/-- The bytes, in front of the count of rows, that end a region of open length. -/
def endMarker (flags : UInt8) : UInt8 × UInt8 :=
  if flags.toNat.testBit 0 then (0x00, 0x00) else (0xFF, 0xAC)

/-- The first of `count` positions from `start` on at which two given bytes stand. -/
def findPair (data : Bytes) (pair : UInt8 × UInt8) : (count start : Nat) → Option Nat
  | 0, _ => none
  | count + 1, start =>
    if data.getD start 0 = pair.1 ∧ data.getD (start + 1) 0 = pair.2 then some start
    else findPair data pair count (start + 1)

/-- The length of the data of a generic region: it ends with a marker and the count of rows, the
first that are found behind the region information and the flags. -/
def regionLength (data : Bytes) : Except DecodeError Nat :=
  match data[RegionInfo.byteCount]? with
  | none => .error .unexpectedEnd
  | some flags =>
    let start := RegionInfo.byteCount + 1
    match findPair data (endMarker flags) (data.size - 5 - start) start with
    | some position => .ok (position + 6)
    | none => .error (.malformed .missingEndMarker)

/-- Read the data that belongs to a header. -/
def readData (header : SegmentHeader) : Reading Bytes := do
  match header.dataLength with
  | some length => Reader.readBytes length
  | none =>
    if header.kind.allowsUnknownLength then
      let length ← regionLength (← get).tail
      Reader.readBytes length
    else throw (.malformed .unknownLength)

/-- The item that a header and its data make. -/
def itemOf (header : SegmentHeader) (data : Bytes) : StreamItem :=
  match header.validate with
  | .ok () => .segment ⟨header, data⟩
  | .error e => .invalid header e

/-- The items of a stream in which every header is followed by its data, at most `limit` of them. -/
def interleaved : (limit : Nat) → Reader → List StreamItem
  | 0, _ => []
  | limit + 1, r =>
    if r.data.size ≤ r.position / 8 then []
    else match SegmentHeader.read r with
      | .error e => [.broken none e]
      | .ok (header, r) =>
        match readData header r with
        | .error e => [.broken (some header) e]
        | .ok (data, r) =>
          itemOf header data :: if header.kind = .endOfFile then [] else interleaved limit r

/-- The number of items that data of a given size can hold: no header is shorter than
`minHeaderBytes`, and what is left may still be a broken one. -/
def itemLimit (size : Nat) : Nat := size / minHeaderBytes + 1

/-- The items of a stream without a file header. -/
def embedded (data : Bytes) : List StreamItem :=
  interleaved (itemLimit data.size) (Reader.ofBytes data)

/-- Read at most `limit` headers, up to the end of the data or of the file. -/
def readHeaders : (limit : Nat) → Reading (List SegmentHeader)
  | 0 => return []
  | limit + 1 => do
    if ← Reader.atEnd then return []
    let header ← SegmentHeader.read
    if header.dataLength.isNone then throw (.malformed .unknownLength)
    if header.kind = .endOfFile then return [header]
    return header :: (← readHeaders limit)

/-- The items whose headers were read before, from the place where their data starts. -/
def deferred : List SegmentHeader → Reader → List StreamItem
  | [], _ => []
  | header :: rest, r =>
    match readData header r with
    | .error e => [.broken (some header) e]
    | .ok (data, r) =>
      itemOf header data :: if header.kind = .endOfFile then [] else deferred rest r

/-- The items of a stream in which all headers come before all data. -/
def headersFirst (r : Reader) : List StreamItem :=
  match readHeaders (itemLimit r.data.size) r with
  | .error e => [.broken none e]
  | .ok (headers, r) => deferred headers r

end Stream

/-! ## Files -/

/-- How the segments of a file are laid out. -/
inductive Organization where
  /-- Every header is followed by its data. -/
  | sequential
  /-- All headers come before all data. -/
  | randomAccess
  deriving DecidableEq, Repr

structure FileHeader where
  organization : Organization
  /-- The number of pages, if it is known. -/
  pageCount : Option Nat
  deriving DecidableEq, Repr

namespace FileHeader

/-- The bytes at the start of every file. -/
def fileId : Bytes := #[0x97, 0x4A, 0x42, 0x32, 0x0D, 0x0A, 0x1A, 0x0A]

def read : Reading FileHeader := do
  let id ← Reader.readBytes 8
  if id ≠ fileId then throw (.malformed .invalidFileHeader)
  let flags ← Reader.readUnsigned 1
  if flags / 16 ≠ 0 then throw (.malformed .reservedBits)
  let organization := if flags.testBit 0 then Organization.sequential else .randomAccess
  if flags.testBit 1 then return { organization, pageCount := none }
  else return { organization, pageCount := some (← Reader.readUnsigned 4) }

def write (h : FileHeader) (w : Writer) : Writer :=
  let flags := (decide (h.organization = .sequential)).toNat + 2 * h.pageCount.isNone.toNat
  let w := w.writeBytes fileId |>.writeUnsigned 1 flags
  match h.pageCount with
  | some count => w.writeUnsigned 4 count
  | none => w

end FileHeader

/-- The items of a file. -/
def Stream.file (data : Bytes) : Except DecodeError (List StreamItem) := do
  let (header, r) ← FileHeader.read.run (Reader.ofBytes data)
  match header.organization with
  | .sequential => return interleaved (itemLimit data.size) r
  | .randomAccess => return headersFirst r

end Bilevel

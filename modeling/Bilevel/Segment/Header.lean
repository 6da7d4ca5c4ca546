import Bilevel.Bits.Reader
import Bilevel.Bits.Writer
import Bilevel.Segment.Kind

/-!
# Segment headers

A segment header has the number and the kind of a segment, the segments that it refers to, the page
that it belongs to, and the length of its data. A segment refers only to segments before it, so the
width of these references follows from its own number.
-/

namespace Bilevel

structure SegmentHeader where
  number : Nat
  kind : SegmentKind
  deferredNonRetain : Bool
  /-- Whether this segment, and each segment that it refers to, is still needed afterwards. -/
  retention : List Bool
  /-- The numbers of the segments that this one refers to. -/
  referred : List Nat
  /-- The page to which the segment belongs, 0 if to none. -/
  page : Nat
  /-- The length of the data, unless it has to be found from the data itself. -/
  dataLength : Option Nat
  deriving DecidableEq, Repr

namespace SegmentHeader

/-- The number of bytes of a reference in the segment with a given number. -/
def referredWidth (number : Nat) : Nat :=
  if number ≤ 256 then 1 else if number ≤ 65536 then 2 else 4

/-- The field that stands for an open data length. -/
def unknownLength : Nat := 0xFFFFFFFF

/-- Flag `i` of a sequence of bytes, each of which starts at its least significant bit. -/
def flagAt (bytes : Bytes) (i : Nat) : Bool := (bytes.getD (i / 8) 0).toNat.testBit (i % 8)

/-- The number of references, and the retention flags. Up to four references are counted in three
bits of one byte, beside their flags. -/
def readRetention (number : Nat) : Reading (Nat × List Bool) := do
  let first ← Reader.readUnsigned 1
  let short := first / 32
  if short = 5 ∨ short = 6 then throw (.malformed .invalidReferredCount)
  else if short = 7 then
    let count := (first % 32) <<< 24 + (← Reader.readUnsigned 3)
    let flagBytes := (count + 8) / 8
    if (← get).bytesLeft < flagBytes + count * referredWidth number then
      throw (.malformed .invalidReferredCount)
    let bytes ← Reader.readBytes flagBytes
    return (count, (List.range (count + 1)).map (flagAt bytes))
  else return (short, (List.range (short + 1)).map first.testBit)

def readReferred (width : Nat) : (count : Nat) → Reading (List Nat)
  | 0 => return []
  | count + 1 => do
    let referred ← Reader.readUnsigned width
    return referred :: (← readReferred width count)

def read : Reading SegmentHeader := do
  let number ← Reader.readUnsigned 4
  let flags ← Reader.readUnsigned 1
  let some kind := SegmentKind.ofCode? (flags % 64)
    | throw (.malformed (.unknownSegmentType (flags % 64)))
  let (count, retention) ← readRetention number
  let referred ← readReferred (referredWidth number) count
  let page ← Reader.readUnsigned (if flags.testBit 6 then 4 else 1)
  let length ← Reader.readUnsigned 4
  return {
    number, kind, retention, referred, page
    deferredNonRetain := flags.testBit 7
    dataLength := if length = unknownLength then none else some length }

/-- The byte whose flag `i`, from the least significant bit on, is `flag i`, for the first `count`
flags. -/
def flagByte (flag : Nat → Bool) (count : Nat) : Nat :=
  (List.range count).foldl (fun byte i => byte + (flag i).toNat <<< i) 0

/-- Write the number of references, and the retention flags. -/
def writeRetention (h : SegmentHeader) (w : Writer) : Writer :=
  let count := h.referred.length
  let flag i := h.retention.getD i false
  if count ≤ 4 then w.writeUnsigned 1 (count * 32 + flagByte flag (count + 1))
  else
    let w := w.writeUnsigned 4 (0xE0000000 ||| count)
    (List.range ((count + 8) / 8)).foldl
      (fun w chunk => w.writeUnsigned 1 (flagByte (fun i => flag (8 * chunk + i)) 8)) w

def write (h : SegmentHeader) (w : Writer) : Writer :=
  let longPage := decide (0xFF < h.page)
  let w := w.writeUnsigned 4 h.number
  let w := w.writeUnsigned 1 (h.kind.code + 64 * longPage.toNat + 128 * h.deferredNonRetain.toNat)
  let w := h.writeRetention w
  let w := h.referred.foldl (fun w n => w.writeUnsigned (referredWidth h.number) n) w
  let w := w.writeUnsigned (if longPage then 4 else 1) h.page
  w.writeUnsigned 4 (h.dataLength.getD unknownLength)

/-- Check what makes a segment useless but leaves the rest of the stream readable: a reference to a
segment that isn't before this one, and a segment of no page that needs one. -/
def validate (h : SegmentHeader) : Except DecodeError Unit :=
  match h.referred.find? (h.number ≤ ·) with
  | some referred => .error (.reference (.forward h.number referred))
  | none =>
    if h.page = 0 ∧ h.kind.pageBound then .error (.malformed .invalidPageAssociation) else .ok ()

end SegmentHeader
end Bilevel

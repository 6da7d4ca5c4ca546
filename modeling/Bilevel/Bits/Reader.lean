import Bilevel.Bits.Basic
import Bilevel.Error
import Bilevel.Word

/-!
# Reading fields

A `Reader` is a byte string and a position in it, counted in bits. Numbers of several bytes come
with the most significant byte first, bit fields with the most significant bit first. A field that
isn't there completely is an unexpected end of the data.
-/

namespace Bilevel

/-- The number that a byte string stands for, most significant byte first. -/
def bigEndian (bytes : Bytes) : Nat := bytes.foldl (fun n byte => 256 * n + byte.toNat) 0

/-- A byte string and the position, in bits, of the next field to read. -/
structure Reader where
  data : Bytes
  position : Nat
  deriving Repr, DecidableEq

/-- A computation that reads from a byte string and may fail. -/
abbrev Reading := StateT Reader (Except DecodeError)

namespace Reader

def ofBytes (data : Bytes) : Reader := ⟨data, 0⟩

/-- The number of bits that haven't been read. -/
def bitsLeft (r : Reader) : Nat := 8 * r.data.size - r.position

/-- The number of whole bytes, the one at the position included. -/
def bytesLeft (r : Reader) : Nat := r.data.size - r.position / 8

/-- The bytes from the position on. -/
def tail (r : Reader) : Bytes := r.data.extract (r.position / 8) r.data.size

/-- The number formed by the `count` bits at the position: the bytes that hold them, without the
bits after the last and before the first of them. -/
def window (r : Reader) (count : Nat) : Nat :=
  let last := r.position + count
  let held := r.data.extract (r.position / 8) ((last + 7) / 8)
  (bigEndian held >>> (8 * ((last + 7) / 8) - last)) % 1 <<< count

/-- Skip to the next byte boundary. -/
def align : Reading Unit := fun r => .ok ((), { r with position := 8 * ((r.position + 7) / 8) })

/-- Whether no byte is left. -/
def atEnd : Reading Bool := fun r => .ok (decide (r.data.size ≤ r.position / 8), r)

/-- The next bit. -/
def readBit : Reading Bool := fun r =>
  if r.position < 8 * r.data.size then
    .ok (Bits.bitAt r.data r.position, { r with position := r.position + 1 })
  else .error .unexpectedEnd

/-- The next `count` bits as a number. -/
def readBits (count : Nat) : Reading Nat := fun r =>
  if r.position + count ≤ 8 * r.data.size then
    .ok (r.window count, { r with position := r.position + count })
  else .error .unexpectedEnd

/-- The next `count` bytes, from a position on a byte boundary. -/
def readBytes (count : Nat) : Reading Bytes := fun r =>
  let start := r.position / 8
  if start + count ≤ r.data.size then
    .ok (r.data.extract start (start + count), { r with position := r.position + 8 * count })
  else .error .unexpectedEnd

/-- The next `count` bytes as an unsigned number. -/
def readUnsigned (count : Nat) : Reading Nat := do
  return bigEndian (← readBytes count)

/-- The next `count` bytes as a number in two's complement. -/
def readSigned (count : Nat) : Reading Int := do
  return toSigned (8 * count) (← readUnsigned count)

end Reader
end Bilevel

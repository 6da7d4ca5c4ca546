import Bilevel.Bits.Basic
import Bilevel.Word

/-!
# Writing fields

A `Writer` holds the bytes written so far and how many bits of the last one are in use. What it
writes is read back by `Reader` in the same order.
-/

namespace Bilevel

/-- The last `count` bytes of a number, most significant byte first. -/
def toBigEndian : (count n : Nat) → Bytes
  | 0, _ => #[]
  | count + 1, n => (toBigEndian count (n / 256)).push (UInt8.ofNat n)

/-- Bytes written so far. -/
structure Writer where
  data : Bytes := #[]
  /-- The number of bits used in the last byte, 0 when that byte is full. -/
  used : Nat := 0
  deriving Repr, DecidableEq

namespace Writer

def empty : Writer := {}

/-- Fill the last byte with zero bits. -/
def align (w : Writer) : Writer := { w with used := 0 }

def writeBit (w : Writer) (bit : Bool) : Writer :=
  let data := if w.used = 0 then w.data.push 0 else w.data
  { data := Bits.setBit data (8 * (data.size - 1) + w.used) bit, used := (w.used + 1) % 8 }

/-- Write the low `count` bits of `n`, most significant first. -/
def writeBits (w : Writer) (count n : Nat) : Writer := (Bits.lowBits count n).foldl writeBit w

/-- Write whole bytes, at a byte boundary. -/
def writeBytes (w : Writer) (bytes : Bytes) : Writer := { w with data := w.data ++ bytes }

/-- Write a number in `count` bytes. -/
def writeUnsigned (w : Writer) (count n : Nat) : Writer := w.writeBytes (toBigEndian count n)

/-- Write a number in `count` bytes of two's complement. -/
def writeSigned (w : Writer) (count : Nat) (n : Int) : Writer :=
  w.writeUnsigned count (ofSigned (8 * count) n)

end Writer
end Bilevel

import Bilevel.Bits.Basic
import Bilevel.Error
import Bilevel.Mq.Context

/-!
# Decoding decisions

The decoder narrows an interval of size `a`, decision by decision, to the part in which the coded
number `c` lies. When the interval is less than half of its largest size it is doubled until it
isn't, and `c` takes up further bits of the data. Behind the data, and behind a marker in it, the
decoder is fed with ones; it counts how often, so that data which ends too early is noticed.
-/

namespace Bilevel.Mq

/-- A decoder at work. -/
structure Decoder where
  data : Bytes
  /-- The position of the byte that was taken up last. -/
  position : Nat
  /-- The distance of the coded number from the end of the interval, and below the upper sixteen
  bits those that were taken up ahead. -/
  c : Nat
  /-- The size of the interval. -/
  a : Nat
  /-- The number of bits taken up ahead. -/
  ahead : Nat
  /-- How often the decoder wanted a byte behind the data or behind a marker. -/
  synthetic : Nat
  deriving Repr, DecidableEq

namespace Decoder

/-- The number of bytes behind the end that a complete stream of decisions may ask for. -/
def syntheticLimit : Nat := 32

/-- The byte at a position; bytes behind the end look like the start of a marker. -/
def byteAt (d : Decoder) (position : Nat) : Nat := (d.data.getD position 0xFF).toNat

/-- Take up the next byte, of which the first bit is left out after a byte of ones. -/
def takeByte (d : Decoder) : Decoder :=
  if d.byteAt d.position = 0xFF then
    if 0x8F < d.byteAt (d.position + 1) then
      { d with synthetic := d.synthetic + 1, ahead := 8 }
    else
      { d with
        position := d.position + 1
        c := (d.c + 0xFE00 + 0x100000000 - 0x200 * d.byteAt (d.position + 1)) % 0x100000000
        ahead := 7 }
  else
    { d with
      position := d.position + 1
      c := (d.c + 0xFF00 + 0x100000000 - 0x100 * d.byteAt (d.position + 1)) % 0x100000000
      ahead := 8 }

/-- A decoder at the start of its data. -/
def ofBytes (data : Bytes) : Decoder :=
  let first : Decoder := ⟨data, 0, 0, 0, 0, 0⟩
  let d := { first with c := 0x10000 * (255 - first.byteAt 0) }.takeByte
  { d with c := 0x80 * d.c % 0x100000000, ahead := d.ahead - 7, a := 0x8000 }

/-- Double the interval. -/
def double (d : Decoder) : Decoder :=
  let d := if d.ahead = 0 then d.takeByte else d
  { d with a := 2 * d.a, c := 2 * d.c % 0x100000000, ahead := d.ahead - 1 }

def doubleTimes (d : Decoder) : Nat → Decoder
  | 0 => d
  | n + 1 => d.double.doubleTimes n

/-- Double an interval below `0x8000` until it isn't. -/
def renormalize (d : Decoder) : Decoder := d.doubleTimes (15 - d.a.log2)

/-- Decode one decision. Also gives what its context has learnt from it. -/
def decode (d : Decoder) (cx : Context) : Bool × Context × Decoder :=
  let qe := cx.estimate.qe
  let a := d.a - qe
  if d.c / 0x10000 < a then
    if 0x8000 ≤ a then (cx.mps, cx, { d with a })
    else if a < qe then (!cx.mps, cx.afterLps, { d with a }.renormalize)
    else (cx.mps, cx.afterMps, { d with a }.renormalize)
  else
    let d := { d with c := d.c - 0x10000 * a, a := qe }
    if a < qe then (cx.mps, cx.afterMps, d.renormalize)
    else (!cx.mps, cx.afterLps, d.renormalize)

/-- Decode one decision in context `i`. -/
def decodeAt (d : Decoder) (contexts : Contexts) (i : Nat) : Bool × Contexts × Decoder :=
  let (bit, cx, d) := d.decode (contexts.lookup i)
  (bit, contexts.update i cx, d)

/-- Whether the decoder was fed with more ones than any complete stream asks for. -/
def exhausted (d : Decoder) : Bool := decide (syntheticLimit < d.synthetic)

def checkData (d : Decoder) : Except DecodeError Unit :=
  if d.exhausted then .error .unexpectedEnd else .ok ()

end Decoder
end Bilevel.Mq

import Bilevel.Bits.Basic
import Bilevel.Mq.Context

/-!
# Encoding decisions

The encoder narrows the same interval as the decoder and collects in `c` the lower end of it.
Bytes of `c` are put out as they become final, but for a carry that may still reach the last of
them. After a byte of ones the next one holds only seven bits, so that a carry has a place to go
and no marker appears among the coded bytes.
-/

namespace Bilevel.Mq

/-- An encoder at work. -/
structure Encoder where
  /-- The bytes that no carry reaches any more. -/
  out : Bytes
  /-- The lower end of the interval. -/
  c : Nat
  /-- The size of the interval. -/
  a : Nat
  /-- The number of doublings until the next byte is complete. -/
  free : Nat
  /-- The last byte, which a carry may reach. -/
  last : UInt8
  /-- Whether `last` belongs to the stream, and isn't just the place before its first byte. -/
  started : Bool
  deriving Repr, DecidableEq

namespace Encoder

def start : Encoder := ⟨#[], 0, 0x8000, 12, 0, false⟩

/-- The bytes that are final once the last one is. -/
def settled (e : Encoder) : Bytes := if e.started then e.out.push e.last else e.out

/-- Move eight bits of `c` into a new last byte. -/
def emit (e : Encoder) : Encoder where
  out := e.settled
  last := UInt8.ofNat (e.c >>> 19)
  c := e.c % 0x80000
  a := e.a
  free := 8
  started := true

/-- Move seven bits of `c` into a new last byte, which follows a byte of ones. -/
def emitStuffed (e : Encoder) : Encoder where
  out := e.settled
  last := UInt8.ofNat (e.c >>> 20)
  c := e.c % 0x100000
  a := e.a
  free := 7
  started := true

/-- Put out a byte, after the carry if there is one. -/
def putByte (e : Encoder) : Encoder :=
  if e.last = 0xFF then e.emitStuffed
  else if e.c < 0x8000000 then e.emit
  else
    let carried := { e with last := e.last + 1 }
    if carried.last = 0xFF then { carried with c := e.c % 0x8000000 }.emitStuffed
    else carried.emit

/-- Double the interval. -/
def double (e : Encoder) : Encoder :=
  let e := { e with a := 2 * e.a, c := 2 * e.c, free := e.free - 1 }
  if e.free = 0 then e.putByte else e

def doubleTimes (e : Encoder) : Nat → Encoder
  | 0 => e
  | n + 1 => e.double.doubleTimes n

/-- Double an interval below `0x8000` until it isn't. -/
def renormalize (e : Encoder) : Encoder := e.doubleTimes (15 - e.a.log2)

/-- Encode the more probable outcome of a context. -/
def encodeMps (e : Encoder) (cx : Context) : Context × Encoder :=
  let qe := cx.estimate.qe
  let a := e.a - qe
  if 0x8000 ≤ a then (cx, { e with a, c := e.c + qe })
  else if a < qe then (cx.afterMps, { e with a := qe }.renormalize)
  else (cx.afterMps, { e with a, c := e.c + qe }.renormalize)

/-- Encode the less probable outcome of a context. -/
def encodeLps (e : Encoder) (cx : Context) : Context × Encoder :=
  let qe := cx.estimate.qe
  let a := e.a - qe
  if a < qe then (cx.afterLps, { e with a, c := e.c + qe }.renormalize)
  else (cx.afterLps, { e with a := qe }.renormalize)

/-- Encode one decision. Also gives what its context has learnt from it. -/
def encode (e : Encoder) (cx : Context) (bit : Bool) : Context × Encoder :=
  if bit = cx.mps then e.encodeMps cx else e.encodeLps cx

/-- Encode one decision in context `i`. -/
def encodeAt (e : Encoder) (contexts : Contexts) (i : Nat) (bit : Bool) : Contexts × Encoder :=
  let (cx, e) := e.encode (contexts.lookup i) bit
  (contexts.update i cx, e)

/-- Set as many bits of `c` as the interval allows. -/
def setBits (e : Encoder) : Encoder :=
  let filled := e.c / 0x10000 * 0x10000 + 0xFFFF
  { e with c := if e.c + e.a ≤ filled then filled - 0x8000 else filled }

/-- Complete the stream with the remaining bits and the marker `FF AC`. -/
def finish (e : Encoder) : Bytes :=
  let e := e.setBits
  let e := { e with c := e.c <<< e.free }.putByte
  let e := { e with c := e.c <<< e.free }.putByte
  let out := if e.last = 0xFF then e.settled else e.settled.push 0xFF
  out.push 0xAC

end Encoder
end Bilevel.Mq

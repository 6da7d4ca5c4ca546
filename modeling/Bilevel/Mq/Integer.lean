import Bilevel.Mq.Decoder
import Bilevel.Mq.Encoder
import Bilevel.Word

/-!
# Integers as decisions

An integer, or the out-of-band value, is a code word of bits: its sign, a run of ones that says in
which range its magnitude lies, and the place of the magnitude in that range. Every bit is a
decision whose context is formed by the bits before it.
-/

namespace Bilevel.Mq

/-- A range of magnitudes: it starts at `offset`, and a place in it has `bits` bits. -/
structure Tier where
  bits : Nat
  offset : Nat
  deriving DecidableEq, Repr

/-- The ranges of magnitudes before the last. -/
def tiers : List Tier := [⟨2, 0⟩, ⟨4, 4⟩, ⟨6, 20⟩, ⟨8, 84⟩, ⟨12, 340⟩]

/-- The last range of magnitudes. -/
def lastTier : Tier := ⟨32, 4436⟩

/-- The context of a bit is a leading one and the bits before it, of which it keeps the last eight
when there are more. -/
def nextContext (previous : Nat) (bit : Bool) : Nat :=
  if previous < 256 then 2 * previous + bit.toNat
  else (2 * previous + bit.toNat) % 256 + 256

namespace Integer

/-- A value of an integer procedure; `none` is the out-of-band value. -/
abbrev Value := Option Int

/-- The code word of a magnitude, given the ranges that are left. -/
def magnitudeBits (n : Nat) : List Tier → List Bool
  | [] => Bits.lowBits lastTier.bits (n - lastTier.offset)
  | tier :: rest =>
    if n < tier.offset + 1 <<< tier.bits then false :: Bits.lowBits tier.bits (n - tier.offset)
    else true :: magnitudeBits n rest

/-- The code word of a value. The out-of-band value is written as a negative zero. -/
def code : Value → List Bool
  | none => true :: magnitudeBits 0 tiers
  | some n => decide (n < 0) :: magnitudeBits n.natAbs tiers

/-- The value with a given sign and magnitude. -/
def ofMagnitude (negative : Bool) (n : Nat) : Value :=
  if negative then if n = 0 then none else some (-n) else some n

/-- The fresh contexts of an integer procedure. -/
def freshContexts : Contexts := Contexts.fresh 9

/-- Encode bits, each in the context that the ones before it form. -/
def encodeBits (e : Encoder) (contexts : Contexts) (previous : Nat) :
    List Bool → Contexts × Encoder
  | [] => (contexts, e)
  | bit :: rest =>
    let (contexts, e) := e.encodeAt contexts previous bit
    encodeBits e contexts (nextContext previous bit) rest

/-- Encode a value. -/
def encode (e : Encoder) (contexts : Contexts) (value : Value) : Contexts × Encoder :=
  encodeBits e contexts 1 (code value)

/-- A decoder in the middle of a code word. -/
structure Decoding where
  decoder : Decoder
  contexts : Contexts
  /-- The context of the next bit. -/
  previous : Nat

namespace Decoding

def readBit (s : Decoding) : Bool × Decoding :=
  let (bit, contexts, decoder) := s.decoder.decodeAt s.contexts s.previous
  (bit, ⟨decoder, contexts, nextContext s.previous bit⟩)

/-- Read `count` bits as a number behind the bits of `n`. -/
def readBits (s : Decoding) : (count n : Nat) → Nat × Decoding
  | 0, n => (n, s)
  | count + 1, n =>
    let (bit, s) := s.readBit
    s.readBits count (2 * n + bit.toNat)

/-- Read a magnitude, given the ranges that are left. -/
def readMagnitude (s : Decoding) : List Tier → Nat × Decoding
  | [] =>
    let (n, s) := s.readBits lastTier.bits 0
    (lastTier.offset + n, s)
  | tier :: rest =>
    let (more, s) := s.readBit
    if more then s.readMagnitude rest
    else
      let (n, s) := s.readBits tier.bits 0
      (tier.offset + n, s)

end Decoding

/-- Decode a value. Its magnitude has to fit a signed number. -/
def decode (d : Decoder) (contexts : Contexts) :
    Except DecodeError (Value × Contexts × Decoder) := do
  let (negative, s) := (Decoding.mk d contexts 1).readBit
  let (n, s) := s.readMagnitude tiers
  s.decoder.checkData
  if n ≤ 0x7FFFFFFF then return (ofMagnitude negative n, s.contexts, s.decoder)
  else throw .overflow

/-- Decode a value that must not be out of band. -/
def decodeValue (d : Decoder) (contexts : Contexts) :
    Except DecodeError (Int × Contexts × Decoder) := do
  match ← decode d contexts with
  | (some n, contexts, d) => return (n, contexts, d)
  | (none, _, _) => throw (.huffman .unexpectedOob)

end Integer
end Bilevel.Mq

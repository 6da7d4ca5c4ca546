import Bilevel.Mq.Integer

/-!
# Symbol numbers as decisions

The number of a symbol is written in a fixed number of bits. Every bit is a decision whose context
is formed by all the bits before it.
-/

namespace Bilevel.Mq

/-- The number of bits in the number of one of `symbols` symbols. -/
def symbolCodeLength (symbols : Nat) : Nat := if symbols ≤ 1 then 0 else (symbols - 1).log2 + 1

namespace SymbolId

/-- The fresh contexts for numbers of `length` bits. -/
def freshContexts (length : Nat) : Contexts := Contexts.fresh length

/-- Encode the low `count` bits of a number behind the bits that form `previous`. -/
def encodeBits (e : Encoder) (contexts : Contexts) (id : Nat) :
    (count previous : Nat) → Contexts × Encoder
  | 0, _ => (contexts, e)
  | count + 1, previous =>
    let bit := id.testBit count
    let (contexts, e) := e.encodeAt contexts previous bit
    encodeBits e contexts id count (2 * previous + bit.toNat)

/-- Encode a number of `length` bits. -/
def encode (e : Encoder) (contexts : Contexts) (length id : Nat) : Contexts × Encoder :=
  encodeBits e contexts id length 1

/-- Decode `count` bits behind the bits that form `previous`. -/
def decodeBits (d : Decoder) (contexts : Contexts) :
    (count previous : Nat) → Nat × Contexts × Decoder
  | 0, previous => (previous, contexts, d)
  | count + 1, previous =>
    let (bit, contexts, d) := d.decodeAt contexts previous
    decodeBits d contexts count (2 * previous + bit.toNat)

/-- Decode a number of `length` bits. -/
def decode (d : Decoder) (contexts : Contexts) (length : Nat) :
    Except DecodeError (Nat × Contexts × Decoder) := do
  let (id, contexts, d) := decodeBits d contexts length 1
  d.checkData
  return (id - 1 <<< length, contexts, d)

end SymbolId
end Bilevel.Mq

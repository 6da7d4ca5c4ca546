import Bilevel.Symbol.Quantity

/-!
# Where symbol coding comes from

The numbers and the bitmaps of a symbol dictionary or a text region are read from a source, which is
either a stream of decisions or one of Huffman codes. What is read is the same for both.
-/

namespace Bilevel

open Mq

/-- How symbol numbers are written among Huffman codes. -/
inductive SymbolIdCode where
  | table (table : Huffman.Table)
  /-- All numbers have the same number of bits. -/
  | fixed (bits : Nat)

/-- A stream from which numbers and bitmaps are read. -/
inductive Source where
  | decisions (decoder : Decoder) (contexts : SymbolContexts)
  | codes (reader : Reader) (tables : QuantityTables) (ids : SymbolIdCode)

/-- A computation that reads from a source and may fail. -/
abbrev Decoding := StateT Source (Except DecodeError)

namespace Source

/-- Read a number of a given kind, or the out-of-band value. -/
def readValue (q : Quantity) : Decoding (Option Int)
  | decisions decoder contexts => do
    let (value, learnt, decoder) ← Integer.decode decoder (contexts.of q)
    return (value, decisions decoder (contexts.put q learnt))
  | codes reader tables ids => do
    let (value, reader) ← (tables q).decode reader
    return (value, codes reader tables ids)

/-- Read a number of a given kind, which must not be out of band. -/
def readNumber (q : Quantity) : Decoding Int := do
  match ← readValue q with
  | some n => return n
  | none => throw (.huffman .unexpectedOob)

/-- Read the place of an instance across a strip of `2 ^ logStrips` rows. -/
def readAcross (logStrips : Nat) : Decoding Int
  | s@(decisions ..) => readNumber .acrossStrip s
  | codes reader tables ids => do
    let (n, reader) ← Reader.readBits logStrips reader
    return (n, codes reader tables ids)

/-- Read the number of a symbol. -/
def readSymbolId : Decoding Nat
  | decisions decoder contexts => do
    let (id, learnt, decoder) ← SymbolId.decode decoder contexts.ids contexts.idLength
    return (id, decisions decoder { contexts with ids := learnt })
  | codes reader tables (.table table) => do
    let (id, reader) ← table.decodeValue reader
    return (id.toNat, codes reader tables (.table table))
  | codes reader tables (.fixed bits) => do
    let (id, reader) ← Reader.readBits bits reader
    return (id, codes reader tables (.fixed bits))

/-- Read whether an instance is a refinement of its symbol. -/
def readRefined : Decoding Bool
  | s@(decisions ..) => do
    let (n, s) ← readNumber .refined s
    return (n != 0, s)
  | codes reader tables ids => do
    let (bit, reader) ← Reader.readBit reader
    return (bit, codes reader tables ids)

/-- Read the bytes in which a refined bitmap is coded. Among decisions it has no bytes of its
own. -/
def readRefinementData : Decoding (Option Bytes)
  | s@(decisions ..) => .ok (none, s)
  | codes reader tables ids => do
    let (size, reader) ← (tables .refinedSize).decodeValue reader
    if size < 0 then throw (.malformed .invalidDimension)
    let (_, reader) ← Reader.align reader
    let (data, reader) ← Reader.readBytes size.toNat reader
    return (some data, codes reader tables ids)

/-- Decode the pixels of a white bitmap as a refinement of another, from bytes of its own or from
the source. -/
def readRefinement (data : Option Bytes) (params : RefinementParams) (reference bitmap : Bitmap) :
    Decoding Bitmap := fun s =>
  match data, s with
  | none, decisions decoder contexts => do
    let (bitmap, learnt, decoder) ←
      Refinement.decodeBitmap params reference decoder contexts.refinement bitmap
    return (bitmap, decisions decoder { contexts with refinement := learnt })
  | data, s => do
    let (bitmap, _, _) ← Refinement.decodeBitmap params reference
      (Decoder.ofBytes (data.getD #[])) params.freshContexts bitmap
    return (bitmap, s)

end Source
end Bilevel

import Bilevel.Symbol.Quantity

/-!
# Where symbol coding goes

The numbers of a symbol dictionary or a text region are written to a sink, which takes either
decisions or Huffman codes.
-/

namespace Bilevel

open Mq

/-- A stream to which numbers are written. -/
inductive Sink where
  | decisions (encoder : Encoder) (contexts : SymbolContexts)
  | codes (writer : Writer) (tables : QuantityTables)

namespace Sink

/-- Write a number of a given kind, or the out-of-band value. -/
def writeValue (q : Quantity) (value : Option Int) : Sink → Except EncodeError Sink
  | decisions encoder contexts =>
    let (learnt, encoder) := Integer.encode encoder (contexts.of q) value
    .ok (decisions encoder (contexts.put q learnt))
  | codes writer tables => do
    return codes (← (tables q).encode writer value) tables

/-- Write a number that has to fit a signed field. -/
def writeNumber (q : Quantity) (n : Int) (sink : Sink) : Except EncodeError Sink :=
  if FitsSigned n then sink.writeValue q (some n) else .error .valueNotRepresentable

/-- Write the number of a symbol, as decisions. -/
def writeSymbolId (id : Nat) : Sink → Sink
  | decisions encoder contexts =>
    let (learnt, encoder) := SymbolId.encode encoder contexts.ids contexts.idLength id
    decisions encoder { contexts with ids := learnt }
  | codes writer tables => codes writer tables

/-- Write the pixels of a bitmap, as decisions. -/
def writeBitmap (params : GenericParams) (bitmap : Bitmap) : Sink → Sink
  | decisions encoder contexts =>
    let (learnt, encoder) := Generic.encodeBitmap params encoder contexts.generic bitmap
    decisions encoder { contexts with generic := learnt }
  | codes writer tables => codes writer tables

/-- Everything that was written. -/
def finish : Sink → Bytes
  | decisions encoder _ => encoder.finish
  | codes writer _ => writer.data

end Sink
end Bilevel

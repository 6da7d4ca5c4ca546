import Bilevel.Symbol.Dictionary
import Bilevel.Text.Region
import Bilevel.Trace.Basic

/-!
# Traces of symbols

Text regions and symbol dictionaries are decoded here as they are elsewhere. A trace is kept of the
bitmaps that are made for them and for their symbols, and of the symbols and instances that are
refinements.
-/

namespace Bilevel

open Tracing

/-- A traced computation that reads from a source. -/
abbrev TracedDecoding := StateT Source Tracing

instance : MonadLift Decoding TracedDecoding := ⟨fun m s => liftM (m s)⟩

/-- Decode the pixels of a refinement, from bytes of its own or from the source. -/
def Source.readRefinementTraced (data : Option Bytes) (r : Refining) : TracedDecoding Bitmap :=
  fun s => match data, s with
  | none, decisions decoder contexts => do
    let (bitmap, learnt, decoder) ← r.decodeTraced decoder contexts.refinement
    return (bitmap, decisions decoder { contexts with refinement := learnt })
  | data, s => do
    let (bitmap, _, _) ←
      r.decodeTraced (Mq.Decoder.ofBytes (data.getD #[])) r.params.freshContexts
    return (bitmap, s)

/-! ## Text regions -/

namespace Text

/-- Read the bitmap of a refined instance. -/
def readRefinedInstanceTraced (params : Params) (symbol : Bitmap) : TracedDecoding Bitmap := do
  let deltaWidth ← Source.readNumber .refinedWidth
  let deltaHeight ← Source.readNumber .refinedHeight
  let deltaX ← Source.readNumber .refinedX
  let deltaY ← Source.readNumber .refinedY
  let width ← changeSize symbol.width deltaWidth
  let height ← changeSize symbol.height deltaHeight
  let dx ← checkSigned (deltaWidth / 2 + deltaX)
  let dy ← checkSigned (deltaHeight / 2 + deltaY)
  let bitmap ← Bitmap.createTraced params.maxPixelCount width height
  let data ← Source.readRefinementData
  Source.readRefinementTraced data ⟨params.style.params dx dy, symbol, bitmap⟩

/-- Read the bitmap of an instance of a symbol. -/
def readInstanceTraced (params : Params) (symbol : Bitmap) : TracedDecoding Bitmap := do
  if params.refines then
    if ← Source.readRefined then readRefinedInstanceTraced params symbol else return symbol
  else return symbol

/-- Draw `count` instances onto a region, from a place in it on. Also gives where they are. -/
def readInstancesTraced (params : Params) (symbols : Array Bitmap) : (count : Nat) → Cursor →
    (region : Bitmap) → (placed : Array Placement) → TracedDecoding (Bitmap × Array Placement)
  | 0, cursor, region, placed => do
    cursor.finish params
    return (region, placed)
  | count + 1, cursor, region, placed => do
    let (cursor, s) ← cursor.next params
    let across ← if params.logStrips = 0 then pure 0 else Source.readAcross params.logStrips
    let t ← checkSigned (cursor.strip + across)
    let id ← Source.readSymbolId
    let some symbol := symbols[id]? | throw (.malformed .symbolOutOfRange)
    let bitmap ← readInstanceTraced params symbol
    let (placement, last) ← params.layout.place id bitmap s t
    let region := region.combine bitmap placement.x placement.y params.operator
    readInstancesTraced params symbols count { cursor with last := some last } region
      (placed.push placement)

/-- Draw all instances of a text region onto a bitmap. -/
def decodeInstancesTraced (params : Params) (symbols : Array Bitmap) (count : Nat)
    (region : Bitmap) : TracedDecoding (Bitmap × Array Placement) := do
  let cursor ← Cursor.start params
  readInstancesTraced params symbols count cursor region #[]

/-- Decode the data of a text region. -/
def decodeRegionTraced (settings : DecodeSettings) (data : Bytes) (symbols : Array Bitmap)
    (tables : List Huffman.Table) : Tracing TextRegion := do
  let (header, r) ← (Header.read settings).run (Reader.ofBytes data)
  let info := header.info
  let blank ← Bitmap.createTraced settings.maxPixelCount info.width info.height
  let start := if header.startsBlack then blank.fill true else blank
  let source ← sourceOf header symbols.size tables r
  let ((bitmap, placements), _) ←
    (decodeInstancesTraced header.params symbols header.count start).run source
  return ⟨⟨info, bitmap⟩, placements⟩

end Text

/-! ## Symbol dictionaries -/

namespace Symbol

/-- Read a symbol that is a refinement of another. -/
def readRefinedTraced (style : Style) (symbols : Array Bitmap) (bitmap : Bitmap) :
    TracedDecoding Bitmap := do
  let id ← Source.readSymbolId
  let dx ← Source.readNumber .refinedX
  let dy ← Source.readNumber .refinedY
  let data ← Source.readRefinementData
  let some reference := symbols[id]? | throw (.malformed .symbolOutOfRange)
  Source.readRefinementTraced data ⟨style.refinement.params dx dy, reference, bitmap⟩

/-- Read a symbol that is composed of others. -/
def readAggregateTraced (settings : DecodeSettings) (style : Style) (symbols : Array Bitmap)
    (width height : Nat) : TracedDecoding Bitmap := do
  let count ← Source.readNumber .aggregateCount
  if count < 0 then throw (.malformed .invalidSymbolSize)
  let bitmap ← Bitmap.createTraced settings.maxPixelCount width height
  if count = 1 then readRefinedTraced style symbols bitmap
  else
    let (bitmap, _) ←
      Text.decodeInstancesTraced (style.instances settings) symbols count.toNat bitmap
    return bitmap

/-- Read a symbol whose pixels come next among the decisions. -/
def readPlainTraced (settings : DecodeSettings) (style : Style) (width height : Nat) :
    TracedDecoding Bitmap := fun s => do
  let bitmap ← Bitmap.createTraced settings.maxPixelCount width height
  match s with
  | .decisions decoder contexts =>
    let (bitmap, learnt, decoder) ←
      Generic.decodeBitmap style.generic decoder contexts.generic bitmap
    return (bitmap, .decisions decoder { contexts with generic := learnt })
  | .codes .. => return (bitmap, s)

/-- Read the symbols of a class up to its end, at most `room` of them, behind those that are
known. -/
def readClassTraced (settings : DecodeSettings) (style : Style) : (room : Nat) → Class →
    (symbols : Array Bitmap) → TracedDecoding (Class × Array Bitmap)
  | 0, c, symbols => do
    match ← Source.readValue .deltaWidth with
    | none => return (c, symbols)
    | some _ => throw (.malformed .tooManyInstances)
  | room + 1, c, symbols => do
    match ← Source.readValue .deltaWidth with
    | none => return (c, symbols)
    | some delta =>
      let width ← changeSize c.width delta
      let total ← checkWord (c.total + width)
      let c := { c with width, total }
      if collects style (← get) then
        readClassTraced settings style room { c with widths := c.widths.push width } symbols
      else
        let symbol ←
          if style.aggregates then readAggregateTraced settings style symbols width c.height
          else readPlainTraced settings style width c.height
        readClassTraced settings style room c (symbols.push symbol)

/-- Read the pixels of the symbols of a class, side by side in one bitmap. -/
def readCollectiveTraced (settings : DecodeSettings) (width height : Nat) : TracedDecoding Bitmap
  | s@(.decisions ..) => return (← make (Bitmap.blank width height), s)
  | .codes reader tables ids => do
    let (size, reader) ← (tables .collectiveSize).decodeValue reader
    let (_, reader) ← Reader.align reader
    if size ≠ 0 then throw (.unsupported .mmr)
    if width * height > settings.maxPixelCount then throw (.unsupported .imageTooLarge)
    let (data, reader) ← Reader.readBytes (Packed.size width height) reader
    match Bitmap.ofPacked width height data with
    | some bitmap => return (← make bitmap, .codes reader tables ids)
    | none => throw .overflow

/-- Cut a bitmap into symbols of given widths, from column `x` on. -/
def cutTraced (settings : DecodeSettings) (bitmap : Bitmap) : (x : Nat) → List Nat →
    (symbols : Array Bitmap) → Tracing (Array Bitmap)
  | _, [], symbols => return symbols
  | x, width :: rest, symbols => do
    let symbol ← bitmap.cropTraced settings.maxPixelCount x 0 width bitmap.height
    cutTraced settings bitmap (x + width) rest (symbols.push symbol)

/-- Read classes, at most `limit` of them, until there are `total` symbols. -/
def readClassesTraced (settings : DecodeSettings) (style : Style) (total : Nat) : (limit : Nat) →
    (height : Nat) → (symbols : Array Bitmap) → TracedDecoding (Array Bitmap)
  | 0, _, _ => throw .unexpectedEnd
  | limit + 1, height, symbols => do
    if total ≤ symbols.size then return symbols
    else
      let height ← changeSize height (← Source.readNumber .deltaHeight)
      let (c, symbols) ←
        readClassTraced settings style (total - symbols.size) ⟨height, 0, 0, #[]⟩ symbols
      if collects style (← get) then
        let collective ← readCollectiveTraced settings c.total height
        readClassesTraced settings style total limit height
          (← cutTraced settings collective 0 c.widths.toList symbols)
      else readClassesTraced settings style total limit height symbols

/-- Read the symbols of a dictionary and which of them it makes available. -/
def readSymbolsTraced (settings : DecodeSettings) (header : Header) (input : Array Bitmap)
    (limit : Nat) : TracedDecoding (Array Bitmap) := do
  let symbols ←
    readClassesTraced settings header.style (input.size + header.newCount) limit 0 input
  let exported ← readExported symbols limit false 0 #[]
  if exported.size ≠ header.exportedCount then throw (.malformed .exportCountMismatch)
  return exported

/-- Decode the data of a symbol dictionary. -/
def decodeTraced (settings : DecodeSettings) (data : Bytes) (input : Array Bitmap)
    (tables : List Huffman.Table) (last : Option (Nat × SymbolDictionary)) :
    Tracing SymbolDictionary := do
  let (header, r) ← (Header.read settings).run (Reader.ofBytes data)
  let total ← checkWord (input.size + header.newCount)
  let source ← sourceOf header total tables last r
  let (symbols, source) ←
    (readSymbolsTraced settings header input (valueLimit source)).run source
  return ⟨symbols, if header.retains then learntFrom header.style source else none⟩

end Symbol
end Bilevel

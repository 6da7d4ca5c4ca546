import Bilevel.Symbol.Sink
import Bilevel.Text.Instances
import Bilevel.Text.SymbolIds

/-!
# Text regions

A text region is a bitmap on which instances of symbols are drawn. Its data starts with how the
instances are coded. A region that is written here places the top left corners of its instances,
strip by strip and from left to right.
-/

namespace Bilevel

/-- A decoded text region, and where its instances are. -/
structure TextRegion where
  region : Region
  placements : Array Text.Placement
  deriving DecidableEq

namespace Text

/-! ## Headers -/

/-- The Huffman tables of a text region. -/
structure Selections where
  firstInStrip : Huffman.Selection
  deltaInStrip : Huffman.Selection
  deltaStrip : Huffman.Selection
  refinedWidth : Huffman.Selection
  refinedHeight : Huffman.Selection
  refinedX : Huffman.Selection
  refinedY : Huffman.Selection
  refinedSize : Huffman.Selection
  deriving DecidableEq, Repr

namespace Selections

/-- The standard tables for the sizes and places of refined instances. -/
def refinedTables : List Nat := [14, 15]

def ofFlags (settings : DecodeSettings) (flags : Nat) : Except DecodeError Selections := do
  settings.checkReserved (flags >>> 15)
  return {
    firstInStrip := ← Huffman.Selection.ofField (flags % 4) [6, 7]
    deltaInStrip := ← Huffman.Selection.ofField (flags / 4 % 4) [8, 9, 10]
    deltaStrip := ← Huffman.Selection.ofField (flags / 16 % 4) [11, 12, 13]
    refinedWidth := ← Huffman.Selection.ofField (flags / 64 % 4) refinedTables
    refinedHeight := ← Huffman.Selection.ofField (flags / 256 % 4) refinedTables
    refinedX := ← Huffman.Selection.ofField (flags / 1024 % 4) refinedTables
    refinedY := ← Huffman.Selection.ofField (flags / 4096 % 4) refinedTables
    refinedSize := if flags.testBit 14 then .custom else .standard 1 }

/-- The tables for all kinds of numbers; those that a stream defines are used in this order. -/
def resolve (s : Selections) (tables : List Huffman.Table) : Except DecodeError QuantityTables := do
  let (firstInStrip, tables) ← s.firstInStrip.resolve tables
  let (deltaInStrip, tables) ← s.deltaInStrip.resolve tables
  let (deltaStrip, tables) ← s.deltaStrip.resolve tables
  let (refinedWidth, tables) ← s.refinedWidth.resolve tables
  let (refinedHeight, tables) ← s.refinedHeight.resolve tables
  let (refinedX, tables) ← s.refinedX.resolve tables
  let (refinedY, tables) ← s.refinedY.resolve tables
  let (refinedSize, _) ← s.refinedSize.resolve tables
  return fun
    | .firstInStrip => firstInStrip
    | .deltaInStrip => deltaInStrip
    | .refinedWidth => refinedWidth
    | .refinedHeight => refinedHeight
    | .refinedX => refinedX
    | .refinedY => refinedY
    | .refinedSize => refinedSize
    | _ => deltaStrip

end Selections

/-- What stands in front of the instances of a text region. -/
structure Header where
  info : RegionInfo
  /-- The Huffman tables, unless the region is coded by decisions. -/
  selections : Option Selections
  /-- Whether the region is black before anything is drawn. -/
  startsBlack : Bool
  params : Params
  /-- The number of instances. -/
  count : Nat
  deriving DecidableEq, Repr

def Header.read (settings : DecodeSettings) : Reading Header := do
  let info ← RegionInfo.read settings
  let flags ← Reader.readUnsigned 2
  let some operator := CombinationOperator.ofCode? (flags / 128 % 4)
    | throw (.malformed .invalidCombinationOperator)
  let selections ←
    if flags.testBit 0 then
      let fields ← Reader.readUnsigned 2
      pure (some (← Selections.ofFlags settings fields))
    else pure none
  let refines := flags.testBit 1
  let style ← RefinementStyle.read (.ofFlag (flags.testBit 15)) refines
  let count ← Reader.readUnsigned 4
  let layout : Layout := ⟨.ofCode (flags / 16 % 4), flags.testBit 6⟩
  let params : Params := {
    layout, operator, refines, style
    logStrips := flags / 4 % 4
    offset := toSigned 5 (flags >>> 10)
    maxPixelCount := settings.maxPixelCount }
  return { info, selections, params, count, startsBlack := flags.testBit 9 }

/-! ## Decoding -/

/-- The source of the instances, whose data is next in `r`. -/
def sourceOf (header : Header) (symbols : Nat) (tables : List Huffman.Table) (r : Reader) :
    Except DecodeError Source := do
  match header.selections with
  | some selections =>
    let tables ← selections.resolve tables
    let (ids, r) ← SymbolIds.read symbols r
    return .codes r tables (.table ids)
  | none =>
    let refinement := (header.params.style.params 0 0).freshContexts
    let contexts := SymbolContexts.fresh (Mq.symbolCodeLength symbols) #[] refinement
    return .decisions (Mq.Decoder.ofBytes r.tail) contexts

/-- Decode the data of a text region that can use the given symbols, and the given tables for what
is Huffman coded. -/
def decodeRegion (settings : DecodeSettings) (data : Bytes) (symbols : Array Bitmap)
    (tables : List Huffman.Table) : Except DecodeError TextRegion := do
  let (header, r) ← (Header.read settings).run (Reader.ofBytes data)
  let info := header.info
  let blank ← Bitmap.create settings.maxPixelCount info.width info.height
  let start := if header.startsBlack then blank.fill true else blank
  let source ← sourceOf header symbols.size tables r
  let ((bitmap, placements), _) ←
    (decodeInstances header.params symbols header.count start).run source
  return ⟨⟨info, bitmap⟩, placements⟩

/-! ## Encoding -/

/-- The strip of `2 ^ logStrips` rows in which an instance lies. -/
def stripOf (logStrips : Nat) (p : Placement) : Int := p.y >>> logStrips

/-- Whether `p` may come before `q`: in strips from top to bottom, and in a strip from left to
right. -/
def comesBefore (logStrips : Nat) (p q : Placement) : Bool :=
  decide (stripOf logStrips p < stripOf logStrips q) ||
    (decide (stripOf logStrips p = stripOf logStrips q) && decide (p.x ≤ q.x))

/-- Write the place of an instance, behind the one that left the cursor. -/
def writePlace (logStrips : Nat) (cursor : Cursor) (p : Placement) (sink : Sink) :
    Except EncodeError (Cursor × Sink) := do
  let strip := stripOf logStrips p
  match cursor.last with
  | some last =>
    if strip = cursor.strip then
      return (cursor, ← sink.writeNumber .deltaInStrip (p.x - last))
    else
      let sink ← sink.writeValue .deltaInStrip none
      let sink ← sink.writeNumber .deltaStrip (strip - cursor.strip)
      return (⟨strip, p.x, none⟩, ← sink.writeNumber .firstInStrip (p.x - cursor.first))
  | none =>
    let sink ← sink.writeNumber .deltaStrip (strip - cursor.strip)
    return (⟨strip, p.x, none⟩, ← sink.writeNumber .firstInStrip (p.x - cursor.first))

/-- Write instances in order, where the cursor counts strips. -/
def writeInstances (logStrips : Nat) (symbols : Array Bitmap) : List Placement → Cursor → Sink →
    Except EncodeError Sink
  | [], cursor, sink =>
    if cursor.last.isSome then sink.writeValue .deltaInStrip none else .ok sink
  | p :: rest, cursor, sink => do
    let (cursor, sink) ← writePlace logStrips cursor p sink
    let sink ←
      if logStrips = 0 then pure sink
      else sink.writeNumber .acrossStrip (p.y - stripOf logStrips p * (1 <<< logStrips : Nat))
    let width := (symbols[p.symbol]?.map (·.width)).getD 0
    writeInstances logStrips symbols rest { cursor with last := some (p.x + width - 1) }
      (sink.writeSymbolId p.symbol)

/-- The data of a text region on which instances of the given symbols are drawn. -/
def encodeRegion (info : RegionInfo) (symbols : Array Bitmap) (instances : List Placement)
    (logStrips : Nat) : Except EncodeError Bytes :=
  if 3 < logStrips then .error .valueNotRepresentable
  else if instances.any (symbols.size ≤ ·.symbol) then .error .symbolOutOfRange
  else if 0xFFFFFFFF < instances.length ∨ 0xFFFFFFFF < symbols.size then
    .error .valueNotRepresentable
  else do
    let sorted := instances.mergeSort (comesBefore logStrips)
    let w := info.write .empty
    let w := w.writeUnsigned 2 (4 * logStrips + 16 * Corner.topLeft.code)
    let w := w.writeUnsigned 4 instances.length
    let contexts := SymbolContexts.fresh (Mq.symbolCodeLength symbols.size) #[] #[]
    let sink ← (Sink.decisions .start contexts).writeNumber .deltaStrip 0
    let sink ← writeInstances logStrips symbols sorted ⟨0, 0, none⟩ sink
    return (w.writeBytes sink.finish).data

end Text
end Bilevel

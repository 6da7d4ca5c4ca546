import Bilevel.Symbol.Export
import Bilevel.Text.Instances

/-!
# Symbol dictionaries

A symbol dictionary holds bitmaps that text regions draw again and again. It defines symbols class
by class, a class being symbols of one height, and it can use the symbols of other dictionaries:
as parts of its own, and to make them available again. What its pixels taught the coder can be
kept for a later dictionary.
-/

namespace Bilevel

open Mq

namespace Symbol

/-- The Huffman tables of a symbol dictionary. -/
structure Selections where
  deltaHeight : Huffman.Selection
  deltaWidth : Huffman.Selection
  collectiveSize : Huffman.Selection
  aggregateCount : Huffman.Selection
  deriving DecidableEq, Repr

/-- How the pixels of the symbols of a dictionary are coded. A dictionary can only go on with what
another one has learnt if this is the same for both. -/
structure Style where
  template : Template
  atPixels : List AtPixel
  /-- Whether symbols are composed of other symbols. -/
  aggregates : Bool
  refinement : Text.RefinementStyle
  deriving DecidableEq, Repr

/-- What stands in front of the symbols of a dictionary. -/
structure Header where
  /-- The Huffman tables, unless the dictionary is coded by decisions. -/
  selections : Option Selections
  style : Style
  /-- Whether the dictionary goes on with what the last one has learnt. -/
  continues : Bool
  /-- Whether what is learnt is kept for a later dictionary. -/
  retains : Bool
  exportedCount : Nat
  newCount : Nat
  deriving DecidableEq, Repr

/-- What a dictionary has learnt from its pixels. -/
structure Learnt where
  style : Style
  generic : Contexts
  refinement : Contexts
  deriving DecidableEq, Repr

end Symbol

/-- The symbols that a dictionary makes available, and what it keeps for a later one. -/
structure SymbolDictionary where
  symbols : Array Bitmap
  learnt : Option Symbol.Learnt
  deriving DecidableEq

namespace Symbol

/-! ## Headers -/

namespace Selections

def ofFlags (flags : Nat) : Except DecodeError Selections := do
  return {
    deltaHeight := ← Huffman.Selection.ofField (flags / 4 % 4) [4, 5]
    deltaWidth := ← Huffman.Selection.ofField (flags / 16 % 4) [2, 3]
    collectiveSize := if flags.testBit 6 then .custom else .standard 1
    aggregateCount := if flags.testBit 7 then .custom else .standard 1 }

/-- The tables for all kinds of numbers; those that a stream defines are used in this order. Those
for the instances of which symbols are composed are fixed. -/
def resolve (s : Selections) (tables : List Huffman.Table) : Except DecodeError QuantityTables := do
  let (deltaHeight, tables) ← s.deltaHeight.resolve tables
  let (deltaWidth, tables) ← s.deltaWidth.resolve tables
  let (collectiveSize, tables) ← s.collectiveSize.resolve tables
  let (aggregateCount, _) ← s.aggregateCount.resolve tables
  let plain ← Huffman.standardTable 1
  let firstInStrip ← Huffman.standardTable 6
  let deltaInStrip ← Huffman.standardTable 8
  let deltaStrip ← Huffman.standardTable 11
  let refined ← Huffman.standardTable 15
  return fun
    | .deltaHeight => deltaHeight
    | .deltaWidth => deltaWidth
    | .collectiveSize => collectiveSize
    | .aggregateCount => aggregateCount
    | .firstInStrip => firstInStrip
    | .deltaInStrip => deltaInStrip
    | .deltaStrip => deltaStrip
    | .refinedWidth | .refinedHeight | .refinedX | .refinedY => refined
    | _ => plain

end Selections

def Header.read (settings : DecodeSettings) : Reading Header := do
  let flags ← Reader.readUnsigned 2
  settings.checkReserved (flags >>> 13)
  let selections ← if flags.testBit 0 then pure (some (← Selections.ofFlags flags)) else pure none
  let template := Template.ofCode ((flags >>> 10) % 4)
  let atPixels ← if selections.isNone then AtPixel.readCausal template.atCount else pure []
  let aggregates := flags.testBit 1
  let refinement ← Text.RefinementStyle.read (.ofFlag (flags.testBit 12)) aggregates
  let exportedCount ← Reader.readUnsigned 4
  let newCount ← Reader.readUnsigned 4
  return {
    selections, exportedCount, newCount
    style := { template, atPixels, aggregates, refinement }
    continues := flags.testBit 8
    retains := flags.testBit 9 }

/-- How the pixels of a symbol of its own are coded: no rows are left out. -/
def Style.generic (style : Style) : GenericParams where
  template := style.template
  skipsRows := false
  atPixels := style.atPixels

/-- The contexts with which a dictionary starts: fresh ones, or those of the last of the
dictionaries that it refers to. -/
def Header.startContexts (header : Header) (last : Option (Nat × SymbolDictionary)) :
    Except DecodeError Learnt :=
  let style := header.style
  if header.continues then
    match last with
    | none => .error (.malformed .contextMismatch)
    | some (number, dictionary) =>
      match dictionary.learnt with
      | none => .error (.reference (.missing number))
      | some learnt =>
        if learnt.style = style then .ok learnt else .error (.malformed .contextMismatch)
  else .ok ⟨style, style.generic.freshContexts, (style.refinement.params 0 0).freshContexts⟩

/-! ## Sources -/

/-- The source of a dictionary whose data is next in `r`, given the number of the symbols that it
gets from others or defines. -/
def sourceOf (header : Header) (symbols : Nat) (tables : List Huffman.Table)
    (last : Option (Nat × SymbolDictionary)) (r : Reader) : Except DecodeError Source := do
  let idLength := symbolCodeLength symbols
  match header.selections with
  | some selections => return .codes r (← selections.resolve tables) (.fixed (max 1 idLength))
  | none =>
    let learnt ← header.startContexts last
    let idLength := if header.style.aggregates then idLength else 0
    return .decisions (Decoder.ofBytes r.tail)
      (SymbolContexts.fresh idLength learnt.generic learnt.refinement)

/-- What a source has learnt from pixels. -/
def learntFrom (style : Style) : Source → Option Learnt
  | .decisions _ contexts => some ⟨style, contexts.generic, contexts.refinement⟩
  | .codes .. => none

/-- A number that bounds how many values can be read from a source: every value takes a bit of the
codes that are left, or a decision, and decisions are at an end before there are as many as
this. -/
def valueLimit : Source → Nat
  | .decisions decoder _ => 0x40000 * (decoder.data.size + 34) + 1
  | .codes reader .. => 8 * reader.data.size + 1

/-! ## Symbols -/

/-- How the instances of which a symbol is composed are coded and drawn. -/
def Style.instances (style : Style) (settings : DecodeSettings) : Text.Params where
  logStrips := 0
  layout := ⟨.topLeft, false⟩
  operator := .or
  offset := 0
  refines := true
  style := style.refinement
  maxPixelCount := settings.maxPixelCount

/-- Read a symbol that is a refinement of another. -/
def readRefined (style : Style) (symbols : Array Bitmap) (bitmap : Bitmap) : Decoding Bitmap := do
  let id ← Source.readSymbolId
  let dx ← Source.readNumber .refinedX
  let dy ← Source.readNumber .refinedY
  let data ← Source.readRefinementData
  let some reference := symbols[id]? | throw (.malformed .symbolOutOfRange)
  Source.readRefinement data (style.refinement.params dx dy) reference bitmap

/-- Read a symbol that is composed of others. -/
def readAggregate (settings : DecodeSettings) (style : Style) (symbols : Array Bitmap)
    (width height : Nat) : Decoding Bitmap := do
  let count ← Source.readNumber .aggregateCount
  if count < 0 then throw (.malformed .invalidSymbolSize)
  let bitmap ← Bitmap.create settings.maxPixelCount width height
  if count = 1 then readRefined style symbols bitmap
  else
    let (bitmap, _) ← Text.decodeInstances (style.instances settings) symbols count.toNat bitmap
    return bitmap

/-- Read a symbol whose pixels come next among the decisions. -/
def readPlain (settings : DecodeSettings) (style : Style) (width height : Nat) :
    Decoding Bitmap := fun s => do
  let bitmap ← Bitmap.create settings.maxPixelCount width height
  match s with
  | .decisions decoder contexts =>
    let (bitmap, learnt, decoder) ←
      Generic.decodeBitmap style.generic decoder contexts.generic bitmap
    return (bitmap, .decisions decoder { contexts with generic := learnt })
  | .codes .. => return (bitmap, s)

/-- Whether the pixels of the symbols of a class come behind all their widths. -/
def collects (style : Style) : Source → Bool
  | .decisions .. => false
  | .codes .. => !style.aggregates

/-- The symbols of one height, as far as they are known. -/
structure Class where
  height : Nat
  /-- The width of the last symbol. -/
  width : Nat
  /-- The width of all symbols side by side. -/
  total : Nat
  /-- The widths of the symbols whose pixels come later. -/
  widths : Array Nat
  deriving DecidableEq, Repr

/-- Read the symbols of a class up to its end, at most `room` of them, behind those that are
known. -/
def readClass (settings : DecodeSettings) (style : Style) : (room : Nat) → Class →
    (symbols : Array Bitmap) → Decoding (Class × Array Bitmap)
  | 0, c, symbols => do
    match ← Source.readValue .deltaWidth with
    | none => return (c, symbols)
    | some _ => throw (.malformed .tooManyInstances)
  | room + 1, c, symbols => do
    match ← Source.readValue .deltaWidth with
    | none => return (c, symbols)
    | some delta =>
      let width ← changeSize c.width delta
      let total ← checkWord (c.total + width)
      let c := { c with width, total }
      if collects style (← get) then
        readClass settings style room { c with widths := c.widths.push width } symbols
      else
        let symbol ←
          if style.aggregates then readAggregate settings style symbols width c.height
          else readPlain settings style width c.height
        readClass settings style room c (symbols.push symbol)

/-- Read the pixels of the symbols of a class, side by side in one bitmap. -/
def readCollective (settings : DecodeSettings) (width height : Nat) : Decoding Bitmap
  | s@(.decisions ..) => .ok (Bitmap.blank width height, s)
  | .codes reader tables ids => do
    let (size, reader) ← (tables .collectiveSize).decodeValue reader
    let (_, reader) ← Reader.align reader
    if size ≠ 0 then throw (.unsupported .mmr)
    if width * height > settings.maxPixelCount then throw (.unsupported .imageTooLarge)
    let (data, reader) ← Reader.readBytes (Packed.size width height) reader
    match Bitmap.ofPacked width height data with
    | some bitmap => return (bitmap, .codes reader tables ids)
    | none => throw .overflow

/-- Cut a bitmap into symbols of given widths, from column `x` on. -/
def cut (settings : DecodeSettings) (bitmap : Bitmap) : (x : Nat) → List Nat →
    (symbols : Array Bitmap) → Except DecodeError (Array Bitmap)
  | _, [], symbols => .ok symbols
  | x, width :: rest, symbols => do
    let symbol ← bitmap.crop settings.maxPixelCount x 0 width bitmap.height
    cut settings bitmap (x + width) rest (symbols.push symbol)

/-- Read classes, at most `limit` of them, until there are `total` symbols. -/
def readClasses (settings : DecodeSettings) (style : Style) (total : Nat) : (limit : Nat) →
    (height : Nat) → (symbols : Array Bitmap) → Decoding (Array Bitmap)
  | 0, _, _ => throw .unexpectedEnd
  | limit + 1, height, symbols => do
    if total ≤ symbols.size then return symbols
    else
      let height ← changeSize height (← Source.readNumber .deltaHeight)
      let (c, symbols) ←
        readClass settings style (total - symbols.size) ⟨height, 0, 0, #[]⟩ symbols
      if collects style (← get) then
        let collective ← readCollective settings c.total height
        readClasses settings style total limit height
          (← cut settings collective 0 c.widths.toList symbols)
      else readClasses settings style total limit height symbols

/-! ## Dictionaries -/

/-- Read the symbols of a dictionary and which of them it makes available. -/
def readSymbols (settings : DecodeSettings) (header : Header) (input : Array Bitmap) (limit : Nat) :
    Decoding (Array Bitmap) := do
  let symbols ←
    readClasses settings header.style (input.size + header.newCount) limit 0 input
  let exported ← readExported symbols limit false 0 #[]
  if exported.size ≠ header.exportedCount then throw (.malformed .exportCountMismatch)
  return exported

/-- Decode the data of a symbol dictionary that can use the symbols `input` of other dictionaries,
and the given tables for what is Huffman coded. The last of the other dictionaries comes with its
number. -/
def decode (settings : DecodeSettings) (data : Bytes) (input : Array Bitmap)
    (tables : List Huffman.Table) (last : Option (Nat × SymbolDictionary)) :
    Except DecodeError SymbolDictionary := do
  let (header, r) ← (Header.read settings).run (Reader.ofBytes data)
  let total ← checkWord (input.size + header.newCount)
  let source ← sourceOf header total tables last r
  let (symbols, source) ← (readSymbols settings header input (valueLimit source)).run source
  return ⟨symbols, if header.retains then learntFrom header.style source else none⟩

end Symbol
end Bilevel

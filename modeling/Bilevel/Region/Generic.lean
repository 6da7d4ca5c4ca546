import Bilevel.Mq.Decoder
import Bilevel.Mq.Encoder
import Bilevel.Region.AtPixel
import Bilevel.Segment.Region

/-!
# Generic regions

The pixels of a bitmap are coded row by row, each as a decision whose context is formed by pixels
before it. Rows can be left out that are the same as the row above them; before every row, one
decision says whether that changes.
-/

namespace Bilevel

/-- Which pixels form a context. -/
inductive Template where
  | template0
  | template1
  | template2
  | template3
  deriving DecidableEq, Repr, Inhabited

namespace Template

def ofCode : Nat → Template
  | 0 => template0
  | 1 => template1
  | 2 => template2
  | _ => template3

def code : Template → Nat
  | template0 => 0
  | template1 => 1
  | template2 => 2
  | template3 => 3

/-- The number of pixels in a context. -/
def contextBits : Template → Nat
  | template0 => 16
  | template1 => 13
  | template2 | template3 => 10

/-- The number of adaptive pixels. -/
def atCount : Template → Nat
  | template0 => 4
  | _ => 1

/-- The places where the adaptive pixels are unless a stream moves them. -/
def nominalAt : Template → List AtPixel
  | template0 => [⟨3, -1⟩, ⟨-3, -1⟩, ⟨2, -2⟩, ⟨-2, -2⟩]
  | template1 => [⟨3, -1⟩]
  | template2 | template3 => [⟨2, -1⟩]

/-- The context of the decisions about whole rows. -/
def rowContext : Template → Nat
  | template0 => 0x9B25
  | template1 => 0x0795
  | template2 => 0x00E5
  | template3 => 0x0195

end Template

/-- How a bitmap is coded. -/
structure GenericParams where
  template : Template := .template0
  /-- Whether rows that are the same as the one above can be left out. -/
  skipsRows : Bool := true
  atPixels : List AtPixel := template.nominalAt
  deriving DecidableEq, Repr

namespace GenericParams

/-- The adaptive pixel `i`. -/
def atPixel (params : GenericParams) (i : Nat) : AtPixel := params.atPixels.getD i ⟨0, -1⟩

/-- The pixels of a context, that of its most significant bit first. -/
def neighbours (params : GenericParams) : List AtPixel :=
  match params.template with
  | .template0 =>
    [params.atPixel 3, ⟨-1, -2⟩, ⟨0, -2⟩, ⟨1, -2⟩, params.atPixel 2,
     params.atPixel 1, ⟨-2, -1⟩, ⟨-1, -1⟩, ⟨0, -1⟩, ⟨1, -1⟩, ⟨2, -1⟩, params.atPixel 0,
     ⟨-4, 0⟩, ⟨-3, 0⟩, ⟨-2, 0⟩, ⟨-1, 0⟩]
  | .template1 =>
    [⟨-1, -2⟩, ⟨0, -2⟩, ⟨1, -2⟩, ⟨2, -2⟩,
     ⟨-2, -1⟩, ⟨-1, -1⟩, ⟨0, -1⟩, ⟨1, -1⟩, ⟨2, -1⟩, params.atPixel 0,
     ⟨-3, 0⟩, ⟨-2, 0⟩, ⟨-1, 0⟩]
  | .template2 =>
    [⟨-1, -2⟩, ⟨0, -2⟩, ⟨1, -2⟩,
     ⟨-2, -1⟩, ⟨-1, -1⟩, ⟨0, -1⟩, ⟨1, -1⟩, params.atPixel 0,
     ⟨-2, 0⟩, ⟨-1, 0⟩]
  | .template3 =>
    [⟨-3, -1⟩, ⟨-2, -1⟩, ⟨-1, -1⟩, ⟨0, -1⟩, ⟨1, -1⟩, params.atPixel 0,
     ⟨-4, 0⟩, ⟨-3, 0⟩, ⟨-2, 0⟩, ⟨-1, 0⟩]

def freshContexts (params : GenericParams) : Mq.Contexts :=
  Mq.Contexts.fresh params.template.contextBits

end GenericParams

/-- The bits of the given pixels around `(x, y)`, behind the bits of `cx`. -/
def Bitmap.gather (b : Bitmap) (x y : Int) (pixels : List AtPixel) (cx : Nat) : Nat :=
  pixels.foldl (fun cx p => 2 * cx + (b.pixel (x + p.x) (y + p.y)).toNat) cx

namespace Generic

open Mq

/-! ## Bitmaps -/

/-- Decode `count` pixels of row `y`, from column `x` on. -/
def decodePixels (neighbours : List AtPixel) (y : Nat) : (count x : Nat) →
    Decoder → Contexts → Bitmap → Bitmap × Contexts × Decoder
  | 0, _, decoder, contexts, bitmap => (bitmap, contexts, decoder)
  | count + 1, x, decoder, contexts, bitmap =>
    let (bit, contexts, decoder) :=
      decoder.decodeAt contexts (bitmap.gather x y neighbours 0)
    decodePixels neighbours y count (x + 1) decoder contexts
      (if bit then bitmap.set x y true else bitmap)

/-- Whether row `y` is left out, given whether the row before it was. -/
def decodeSkip (params : GenericParams) (skip : Bool) (decoder : Decoder) (contexts : Contexts) :
    Bool × Contexts × Decoder :=
  if params.skipsRows then
    let (change, contexts, decoder) := decoder.decodeAt contexts params.template.rowContext
    (skip ^^ change, contexts, decoder)
  else (false, contexts, decoder)

/-- Decode `count` rows, from row `y` on. The row above the first one is white. -/
def decodeRows (params : GenericParams) : (count y : Nat) → (skip : Bool) →
    Decoder → Contexts → Bitmap → Except DecodeError (Bitmap × Contexts × Decoder)
  | 0, _, _, decoder, contexts, bitmap => .ok (bitmap, contexts, decoder)
  | count + 1, y, skip, decoder, contexts, bitmap => do
    let (skip, contexts, decoder) := decodeSkip params skip decoder contexts
    let (bitmap, contexts, decoder) :=
      if skip then (if y = 0 then bitmap else bitmap.copyRow (y - 1) y, contexts, decoder)
      else decodePixels params.neighbours y bitmap.width 0 decoder contexts bitmap
    decoder.checkData
    decodeRows params count (y + 1) skip decoder contexts bitmap

/-- Decode the pixels of a white bitmap. -/
def decodeBitmap (params : GenericParams) (decoder : Decoder) (contexts : Contexts)
    (bitmap : Bitmap) : Except DecodeError (Bitmap × Contexts × Decoder) :=
  decodeRows params bitmap.height 0 false decoder contexts bitmap

/-- Encode `count` pixels of row `y`, from column `x` on. -/
def encodePixels (neighbours : List AtPixel) (bitmap : Bitmap) (y : Nat) : (count x : Nat) →
    Encoder → Contexts → Contexts × Encoder
  | 0, _, encoder, contexts => (contexts, encoder)
  | count + 1, x, encoder, contexts =>
    let (contexts, encoder) :=
      encoder.encodeAt contexts (bitmap.gather x y neighbours 0) (bitmap.get x y)
    encodePixels neighbours bitmap y count (x + 1) encoder contexts

/-- Whether row `y` is the same as the one above, where the row above the first one is white. -/
def repeatsRow (bitmap : Bitmap) (y : Nat) : Bool :=
  if y = 0 then (bitmap.row 0).all (· == 0) else bitmap.sameRows y (y - 1)

/-- Encode whether row `y` is left out, given whether the row before it was. -/
def encodeSkip (params : GenericParams) (bitmap : Bitmap) (y : Nat) (skip : Bool)
    (encoder : Encoder) (contexts : Contexts) : Bool × Contexts × Encoder :=
  if params.skipsRows then
    let repeats := repeatsRow bitmap y
    let (contexts, encoder) :=
      encoder.encodeAt contexts params.template.rowContext (repeats != skip)
    (repeats, contexts, encoder)
  else (false, contexts, encoder)

/-- Encode `count` rows, from row `y` on. -/
def encodeRows (params : GenericParams) (bitmap : Bitmap) : (count y : Nat) → (skip : Bool) →
    Encoder → Contexts → Contexts × Encoder
  | 0, _, _, encoder, contexts => (contexts, encoder)
  | count + 1, y, skip, encoder, contexts =>
    let (skip, contexts, encoder) := encodeSkip params bitmap y skip encoder contexts
    let (contexts, encoder) :=
      if skip then (contexts, encoder)
      else encodePixels params.neighbours bitmap y bitmap.width 0 encoder contexts
    encodeRows params bitmap count (y + 1) skip encoder contexts

/-- Encode the pixels of a bitmap. -/
def encodeBitmap (params : GenericParams) (encoder : Encoder) (contexts : Contexts)
    (bitmap : Bitmap) : Contexts × Encoder :=
  encodeRows params bitmap bitmap.height 0 false encoder contexts

/-! ## Regions -/

/-- Read what stands in front of the coded pixels of a region. -/
def readHeader (settings : DecodeSettings) : Reading (RegionInfo × GenericParams) := do
  let info ← RegionInfo.read settings
  let flags ← Reader.readUnsigned 1
  if flags.testBit 0 then throw (.unsupported .mmr)
  let template := Template.ofCode (flags / 2 % 4)
  if flags.testBit 4 then
    if template = .template0 then throw (.unsupported .extendedTemplate)
    settings.checkReserved (flags / 16 % 2)
  settings.checkReserved (flags / 32)
  let atPixels ← AtPixel.readCausal template.atCount
  return (info, { template, atPixels, skipsRows := flags.testBit 3 })

/-- Split off the count of rows that ends a region of open length. -/
def splitRowCount (info : RegionInfo) (coded : Bytes) : Except DecodeError (RegionInfo × Bytes) :=
  if coded.size < 4 then .error (.malformed .missingEndMarker)
  else
    let rows := bigEndian (coded.extract (coded.size - 4) coded.size)
    if info.height < rows then .error (.malformed .invalidDimension)
    else .ok ({ info with height := rows }, coded.extract 0 (coded.size - 4))

/-- Decode the data of a generic region, where the length of the data was open or not. -/
def decodeRegion (settings : DecodeSettings) (data : Bytes) (openLength : Bool) :
    Except DecodeError Region := do
  let ((info, params), r) ← (readHeader settings).run (Reader.ofBytes data)
  let (info, coded) ← if openLength then splitRowCount info r.tail else pure (info, r.tail)
  let bitmap ← Bitmap.create settings.maxPixelCount info.width info.height
  let (bitmap, _, _) ← decodeBitmap params (Decoder.ofBytes coded) params.freshContexts bitmap
  return ⟨info, bitmap⟩

/-- The data of a generic region. -/
def encodeRegion (info : RegionInfo) (params : GenericParams) (bitmap : Bitmap) : Bytes :=
  let w := info.write .empty
  let w := w.writeUnsigned 1 (2 * params.template.code + 8 * params.skipsRows.toNat)
  let w := AtPixel.writeAll w params.atPixels
  let (_, encoder) := encodeBitmap params .start params.freshContexts bitmap
  (w.writeBytes encoder.finish).data

end Generic
end Bilevel

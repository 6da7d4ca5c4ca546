import Bilevel.Region.Generic

/-!
# Refinement regions

A bitmap is coded with the help of another one that it resembles, the reference. The context of a
pixel is formed by pixels before it and by pixels of the reference around the same place. In some
rows, pixels are left out where nine pixels of the reference have one colour; before every row,
one decision says whether that changes.

A stream can put the reference anywhere. Coordinates in it are signed numbers of 32 bits and wrap
around where they don't fit; whether they do is worked out beside them.
-/

namespace Bilevel

/-- Which pixels form a context. -/
inductive RefinementTemplate where
  | template0
  | template1
  deriving DecidableEq, Repr, Inhabited

namespace RefinementTemplate

def code : RefinementTemplate → Nat
  | template0 => 0
  | template1 => 1

/-- The template for a flag. -/
def ofFlag (flag : Bool) : RefinementTemplate := if flag then template1 else template0

/-- The number of pixels in a context. -/
def contextBits : RefinementTemplate → Nat
  | template0 => 13
  | template1 => 10

/-- The context of the decisions about whole rows. -/
def rowContext : RefinementTemplate → Nat
  | template0 => 0x0010
  | template1 => 0x0008

end RefinementTemplate

/-- The adaptive pixels of the refinement templates: one before the coded pixel, and one in the
reference. -/
structure RefinementAt where
  current : AtPixel := ⟨-1, -1⟩
  reference : AtPixel := ⟨-1, -1⟩
  deriving DecidableEq, Repr

namespace RefinementAt

/-- Read the adaptive pixels. Only that of the coded bitmap has to be causal. -/
def read : Reading RefinementAt := do
  let current ← AtPixel.read
  let reference ← AtPixel.read
  if !current.causal then throw (.malformed .invalidAtPixel)
  return { current, reference }

def write (w : Writer) (pixels : RefinementAt) : Writer :=
  AtPixel.writeAll w [pixels.current, pixels.reference]

end RefinementAt

/-- How a bitmap is coded with the help of another. -/
structure RefinementParams where
  template : RefinementTemplate := .template0
  /-- Whether pixels can be left out where the reference has one colour. -/
  skipsPixels : Bool := true
  atPixels : RefinementAt := {}
  /-- The place of the reference relative to the coded bitmap. -/
  dx : Int := 0
  dy : Int := 0
  deriving DecidableEq, Repr

/-- The bits of the given pixels around `(x, y)`, behind the bits of `cx`, where coordinates wrap
around. -/
def Bitmap.gatherWrapped (b : Bitmap) (x y : Int) (pixels : List AtPixel) (cx : Nat) : Nat :=
  pixels.foldl
    (fun cx p => 2 * cx + (b.pixel (wrapSigned (x + p.x)) (wrapSigned (y + p.y))).toNat) cx

namespace RefinementParams

/-- The pixels of a context in the coded bitmap, that of the most significant bit first. -/
def neighbours (params : RefinementParams) : List AtPixel :=
  match params.template with
  | .template0 => [params.atPixels.current, ⟨0, -1⟩, ⟨1, -1⟩, ⟨-1, 0⟩]
  | .template1 => [⟨-1, -1⟩, ⟨0, -1⟩, ⟨1, -1⟩, ⟨-1, 0⟩]

/-- The pixels of a context in the reference, behind those in the coded bitmap. -/
def referenceNeighbours (params : RefinementParams) : List AtPixel :=
  match params.template with
  | .template0 =>
    [params.atPixels.reference, ⟨0, -1⟩, ⟨1, -1⟩, ⟨-1, 0⟩, ⟨0, 0⟩, ⟨1, 0⟩, ⟨-1, 1⟩, ⟨0, 1⟩, ⟨1, 1⟩]
  | .template1 => [⟨0, -1⟩, ⟨-1, 0⟩, ⟨0, 0⟩, ⟨1, 0⟩, ⟨0, 1⟩, ⟨1, 1⟩]

def freshContexts (params : RefinementParams) : Mq.Contexts :=
  Mq.Contexts.fresh params.template.contextBits

/-- The context of the pixel at `(x, y)`. -/
def context (params : RefinementParams) (bitmap reference : Bitmap) (x y : Nat) : Nat :=
  reference.gatherWrapped (wrapSigned (x - params.dx)) (wrapSigned (y - params.dy))
    params.referenceNeighbours (bitmap.gather x y params.neighbours 0)

/-- A pixel and the eight around it. -/
def square : List AtPixel :=
  [⟨-1, -1⟩, ⟨0, -1⟩, ⟨1, -1⟩, ⟨-1, 0⟩, ⟨0, 0⟩, ⟨1, 0⟩, ⟨-1, 1⟩, ⟨0, 1⟩, ⟨1, 1⟩]

/-- The colour of the nine pixels of the reference around the place of `(x, y)`, if it is one. -/
def typical (params : RefinementParams) (reference : Bitmap) (x y : Nat) : Option Bool :=
  let rx := wrapSigned (x - params.dx)
  let ry := wrapSigned (y - params.dy)
  let centre := reference.pixel rx ry
  if square.all fun p =>
    reference.pixel (wrapSigned (rx + p.x)) (wrapSigned (ry + p.y)) == centre
  then some centre else none

/-! ## Coordinates that fit -/

/-- The coordinates of a place and of some pixels around it fit signed numbers. -/
def AroundFits (x y : Int) (pixels : List AtPixel) : Prop :=
  (FitsSigned x ∧ FitsSigned y) ∧ ∀ p ∈ pixels, FitsSigned (x + p.x) ∧ FitsSigned (y + p.y)

instance (x y : Int) (pixels : List AtPixel) : Decidable (AroundFits x y pixels) :=
  inferInstanceAs (Decidable (_ ∧ _))

/-- Whether a coordinate that is worked out for the context of the pixel at `(x, y)` doesn't fit. -/
def contextOverflows (params : RefinementParams) (x y : Nat) : Bool :=
  !(AroundFits x y params.neighbours ∧
    AroundFits (x - params.dx) (y - params.dy) params.referenceNeighbours)

/-- Whether a coordinate of the nine pixels around the place of `(x, y)` doesn't fit. -/
def typicalOverflows (params : RefinementParams) (x y : Nat) : Bool :=
  !AroundFits (x - params.dx) (y - params.dy) square

/-- Whether a coordinate that is worked out for the pixel at `(x, y)` doesn't fit. The nine pixels
are looked at in rows where pixels can be left out, and the context unless this one is. -/
def pixelOverflows (params : RefinementParams) (reference : Bitmap) (skip : Bool) (x y : Nat) :
    Bool :=
  if skip && (params.typical reference x y).isSome then params.typicalOverflows x y
  else params.contextOverflows x y

/-- Whether a coordinate doesn't fit among `count` pixels of row `y`, from column `x` on. -/
def rowOverflows (params : RefinementParams) (reference : Bitmap) (skip : Bool) (y : Nat) :
    (count x : Nat) → Bool
  | 0, _ => false
  | count + 1, x =>
    params.pixelOverflows reference skip x y || rowOverflows params reference skip y count (x + 1)

end RefinementParams

namespace Refinement

open Mq

/-! ## Bitmaps -/

/-- Decode `count` pixels of row `y`, from column `x` on. -/
def decodePixels (params : RefinementParams) (reference : Bitmap) (skip : Bool) (y : Nat) :
    (count x : Nat) → Decoder → Contexts → Bitmap → Bitmap × Contexts × Decoder
  | 0, _, decoder, contexts, bitmap => (bitmap, contexts, decoder)
  | count + 1, x, decoder, contexts, bitmap =>
    let (bit, contexts, decoder) :=
      match if skip then params.typical reference x y else none with
      | some colour => (colour, contexts, decoder)
      | none => decoder.decodeAt contexts (params.context bitmap reference x y)
    decodePixels params reference skip y count (x + 1) decoder contexts
      (if bit then bitmap.set x y true else bitmap)

/-- Whether pixels of the next row are left out, given whether they were in the row before it. -/
def decodeSkip (params : RefinementParams) (skip : Bool) (decoder : Decoder)
    (contexts : Contexts) : Bool × Contexts × Decoder :=
  if params.skipsPixels then
    let (change, contexts, decoder) := decoder.decodeAt contexts params.template.rowContext
    (skip ^^ change, contexts, decoder)
  else (false, contexts, decoder)

/-- Decode `count` rows, from row `y` on. -/
def decodeRows (params : RefinementParams) (reference : Bitmap) : (count y : Nat) →
    (skip : Bool) → Decoder → Contexts → Bitmap →
    Except DecodeError (Bitmap × Contexts × Decoder)
  | 0, _, _, decoder, contexts, bitmap => .ok (bitmap, contexts, decoder)
  | count + 1, y, skip, decoder, contexts, bitmap => do
    let (skip, contexts, decoder) := decodeSkip params skip decoder contexts
    let (bitmap, contexts, decoder) :=
      decodePixels params reference skip y bitmap.width 0 decoder contexts bitmap
    decoder.checkData
    decodeRows params reference count (y + 1) skip decoder contexts bitmap

/-- Decode the pixels of a white bitmap. -/
def decodeBitmap (params : RefinementParams) (reference : Bitmap) (decoder : Decoder)
    (contexts : Contexts) (bitmap : Bitmap) :
    Except DecodeError (Bitmap × Contexts × Decoder) :=
  decodeRows params reference bitmap.height 0 false decoder contexts bitmap

/-- Decode `count` rows, from row `y` on, and tell whether a coordinate doesn't fit in a row that
decoding comes to or in an earlier one. -/
def decodeRowsWatched (params : RefinementParams) (reference : Bitmap) : (count y : Nat) →
    (skip overflows : Bool) → Decoder → Contexts → Bitmap →
    Except DecodeError (Bitmap × Contexts × Decoder) × Bool
  | 0, _, _, overflows, decoder, contexts, bitmap => (.ok (bitmap, contexts, decoder), overflows)
  | count + 1, y, skip, overflows, decoder, contexts, bitmap =>
    let (skip, contexts, decoder) := decodeSkip params skip decoder contexts
    let overflows := overflows || params.rowOverflows reference skip y bitmap.width 0
    let (bitmap, contexts, decoder) :=
      decodePixels params reference skip y bitmap.width 0 decoder contexts bitmap
    match decoder.checkData with
    | .ok () =>
      decodeRowsWatched params reference count (y + 1) skip overflows decoder contexts bitmap
    | .error e => (.error e, overflows)

/-- Encode `count` pixels of row `y`, from column `x` on. -/
def encodePixels (params : RefinementParams) (reference bitmap : Bitmap) (skip : Bool) (y : Nat) :
    (count x : Nat) → Encoder → Contexts → Contexts × Encoder
  | 0, _, encoder, contexts => (contexts, encoder)
  | count + 1, x, encoder, contexts =>
    let (contexts, encoder) :=
      if skip && (params.typical reference x y).isSome then (contexts, encoder)
      else encoder.encodeAt contexts (params.context bitmap reference x y) (bitmap.get x y)
    encodePixels params reference bitmap skip y count (x + 1) encoder contexts

/-- Whether the first `count` pixels of row `y` are as the reference has them wherever it has one
colour. -/
def followsReference (params : RefinementParams) (reference bitmap : Bitmap) (y : Nat) :
    (count : Nat) → Bool
  | 0 => true
  | x + 1 =>
    followsReference params reference bitmap y x &&
      match params.typical reference x y with
      | some colour => colour == bitmap.get x y
      | none => true

/-- Encode whether pixels of row `y` are left out, given whether they were in the row before it. -/
def encodeSkip (params : RefinementParams) (reference bitmap : Bitmap) (y : Nat) (skip : Bool)
    (encoder : Encoder) (contexts : Contexts) : Bool × Contexts × Encoder :=
  if params.skipsPixels then
    let follows := followsReference params reference bitmap y bitmap.width
    let (contexts, encoder) :=
      encoder.encodeAt contexts params.template.rowContext (follows != skip)
    (follows, contexts, encoder)
  else (false, contexts, encoder)

/-- Encode `count` rows, from row `y` on. -/
def encodeRows (params : RefinementParams) (reference bitmap : Bitmap) : (count y : Nat) →
    (skip : Bool) → Encoder → Contexts → Contexts × Encoder
  | 0, _, _, encoder, contexts => (contexts, encoder)
  | count + 1, y, skip, encoder, contexts =>
    let (skip, contexts, encoder) := encodeSkip params reference bitmap y skip encoder contexts
    let (contexts, encoder) :=
      encodePixels params reference bitmap skip y bitmap.width 0 encoder contexts
    encodeRows params reference bitmap count (y + 1) skip encoder contexts

/-- Encode the pixels of a bitmap. -/
def encodeBitmap (params : RefinementParams) (reference : Bitmap) (encoder : Encoder)
    (contexts : Contexts) (bitmap : Bitmap) : Contexts × Encoder :=
  encodeRows params reference bitmap bitmap.height 0 false encoder contexts

/-! ## Regions -/

/-- Read what stands in front of the coded pixels of a region. -/
def readHeader (settings : DecodeSettings) : Reading (RegionInfo × RefinementParams) := do
  let info ← RegionInfo.read settings
  let flags ← Reader.readUnsigned 1
  settings.checkReserved (flags / 4)
  let template := RefinementTemplate.ofFlag (flags.testBit 0)
  let atPixels ← if template = .template0 then RefinementAt.read else pure {}
  return (info, { template, atPixels, skipsPixels := flags.testBit 1 })

/-- Decode the data of a refinement region. The reference has the size of the region. -/
def decodeRegion (settings : DecodeSettings) (data : Bytes) (reference : Bitmap) :
    Except DecodeError Region := do
  let ((info, params), r) ← (readHeader settings).run (Reader.ofBytes data)
  if reference.width ≠ info.width ∨ reference.height ≠ info.height then
    throw (.malformed .invalidDimension)
  let bitmap ← Bitmap.create settings.maxPixelCount info.width info.height
  let (bitmap, _, _) ←
    decodeBitmap params reference (Decoder.ofBytes r.tail) params.freshContexts bitmap
  return ⟨info, bitmap⟩

/-- The data of a refinement region. -/
def encodeRegion (info : RegionInfo) (params : RefinementParams) (reference bitmap : Bitmap) :
    Bytes :=
  let w := info.write .empty
  let w := w.writeUnsigned 1 (params.template.code + 2 * params.skipsPixels.toNat)
  let w := if params.template = .template0 then RefinementAt.write w params.atPixels else w
  let (_, encoder) := encodeBitmap params reference .start params.freshContexts bitmap
  (w.writeBytes encoder.finish).data

end Refinement
end Bilevel

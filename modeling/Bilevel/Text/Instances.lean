import Bilevel.Symbol.Source
import Bilevel.Text.Placement

/-!
# Symbol instances

A text region is drawn instance by instance. The first instance of a strip is placed relative to
the first one of the strip before, every other one relative to the last pixel of its neighbour. An
instance shows its symbol or a refinement of it.
-/

namespace Bilevel.Text

/-- How refined instances are coded. -/
structure RefinementStyle where
  template : RefinementTemplate
  atPixels : RefinementAt
  deriving DecidableEq, Repr

namespace RefinementStyle

/-- Read the adaptive pixels of a template, if refinements are used and it has some. -/
def read (template : RefinementTemplate) (used : Bool) : Reading RefinementStyle := do
  if used && template = .template0 then return ⟨template, ← RefinementAt.read⟩
  else return ⟨template, {}⟩

/-- The coding of a bitmap whose reference is at a given place. No pixels are left out. -/
def params (style : RefinementStyle) (dx dy : Int) : RefinementParams where
  template := style.template
  skipsPixels := false
  atPixels := style.atPixels
  dx := dx
  dy := dy

end RefinementStyle

/-- How the instances of a text region are coded and drawn. -/
structure Params where
  /-- The strips have `2 ^ logStrips` rows. -/
  logStrips : Nat
  layout : Layout
  operator : CombinationOperator
  /-- What is added to the place of every instance but the first one in a strip. -/
  offset : Int
  /-- Whether instances can be refinements. -/
  refines : Bool
  style : RefinementStyle
  maxPixelCount : Nat
  deriving DecidableEq, Repr

/-- The place in a text region behind some instances. -/
structure Cursor where
  /-- The place of the strip along T. -/
  strip : Int
  /-- The place of the first instance in the strip along S. -/
  first : Int
  /-- The last pixel of the last instance along S, unless the next strip is to be started. -/
  last : Option Int
  deriving DecidableEq, Repr

namespace Cursor

/-- Read the distance to the next strip. -/
def readStripDistance (params : Params) : Decoding Int := do
  checkSigned ((← Source.readNumber .deltaStrip) * (1 <<< params.logStrips : Nat))

/-- The place in front of all strips. -/
def start (params : Params) : Decoding Cursor := do
  let strip ← checkSigned (-(← readStripDistance params))
  return ⟨strip, 0, none⟩

/-- Go on to the next strip and the first instance in it. -/
def nextStrip (params : Params) (cursor : Cursor) : Decoding (Cursor × Int) := do
  let strip ← checkSigned (cursor.strip + (← readStripDistance params))
  let first ← checkSigned (cursor.first + (← Source.readNumber .firstInStrip))
  return ({ cursor with strip, first }, first)

/-- The place of an instance at a given distance from the last pixel of its neighbour. -/
def advance (params : Params) (last distance : Int) : Except DecodeError Int := do
  checkSigned ((← checkSigned (last + distance)) + params.offset)

/-- Go on to the next instance, in the same strip or in the next one. -/
def next (params : Params) (cursor : Cursor) : Decoding (Cursor × Int) := do
  match cursor.last with
  | none => cursor.nextStrip params
  | some last =>
    match ← Source.readValue .deltaInStrip with
    | some distance => return (cursor, ← advance params last distance)
    | none => cursor.nextStrip params

/-- Check that the last strip ends behind the last instance. -/
def finish (params : Params) (cursor : Cursor) : Decoding Unit := do
  match cursor.last with
  | none => return ()
  | some last =>
    match ← Source.readValue .deltaInStrip with
    | some distance =>
      let _ ← advance params last distance
      throw (.malformed .tooManyInstances)
    | none => return ()

end Cursor

/-- Read the bitmap of a refined instance. -/
def readRefinedInstance (params : Params) (symbol : Bitmap) : Decoding Bitmap := do
  let deltaWidth ← Source.readNumber .refinedWidth
  let deltaHeight ← Source.readNumber .refinedHeight
  let deltaX ← Source.readNumber .refinedX
  let deltaY ← Source.readNumber .refinedY
  let width ← changeSize symbol.width deltaWidth
  let height ← changeSize symbol.height deltaHeight
  let dx ← checkSigned (deltaWidth / 2 + deltaX)
  let dy ← checkSigned (deltaHeight / 2 + deltaY)
  let bitmap ← Bitmap.create params.maxPixelCount width height
  let data ← Source.readRefinementData
  Source.readRefinement data (params.style.params dx dy) symbol bitmap

/-- Read the bitmap of an instance of a symbol. -/
def readInstance (params : Params) (symbol : Bitmap) : Decoding Bitmap := do
  if params.refines then
    if ← Source.readRefined then readRefinedInstance params symbol else return symbol
  else return symbol

/-- Draw `count` instances onto a region, from a place in it on. Also gives where they are. -/
def readInstances (params : Params) (symbols : Array Bitmap) : (count : Nat) → Cursor →
    (region : Bitmap) → (placed : Array Placement) → Decoding (Bitmap × Array Placement)
  | 0, cursor, region, placed => do
    cursor.finish params
    return (region, placed)
  | count + 1, cursor, region, placed => do
    let (cursor, s) ← cursor.next params
    let across ← if params.logStrips = 0 then pure 0 else Source.readAcross params.logStrips
    let t ← checkSigned (cursor.strip + across)
    let id ← Source.readSymbolId
    let some symbol := symbols[id]? | throw (.malformed .symbolOutOfRange)
    let bitmap ← readInstance params symbol
    let (placement, last) ← params.layout.place id bitmap s t
    let region := region.combine bitmap placement.x placement.y params.operator
    readInstances params symbols count { cursor with last := some last } region
      (placed.push placement)

/-- Draw all instances of a text region onto a bitmap. -/
def decodeInstances (params : Params) (symbols : Array Bitmap) (count : Nat) (region : Bitmap) :
    Decoding (Bitmap × Array Placement) := do
  let cursor ← Cursor.start params
  readInstances params symbols count cursor region #[]

end Bilevel.Text

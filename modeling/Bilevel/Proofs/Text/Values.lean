import Bilevel.Proofs.Steps
import Bilevel.Text.Instances

/-!
# Instances from any values

The instances of a text region are made of few kinds of values. Wherever these come from, instances
are read and drawn in the same way. A stream of decisions and one of Huffman codes are two places
they can come from.

## Main definitions

* `Values` — something from which the values of instances are read.
* `Values.decodeInstances` — the instances of a text region, drawn as they are read.

## Main results

* `Values.decodeInstances_ofSource` — text regions are drawn in this way.
-/

namespace Bilevel.Text

/-- A computation that reads from something with a state and may fail. -/
abbrev DecodingFrom (σ : Type) := StateT σ (Except DecodeError)

/-- How a refined instance differs from its symbol. -/
structure RefinementDeltas where
  width : Int
  height : Int
  x : Int
  y : Int
  deriving DecidableEq, Repr

/-- Something from which the values of instances are read. -/
structure Values (σ : Type) where
  /-- The place of the next strip, relative to the last one, in strips. -/
  stripDistance : DecodingFrom σ Int
  /-- The place of the first instance in a strip, relative to that in the last strip. -/
  first : DecodingFrom σ Int
  /-- The place of the next instance in a strip, relative to the last one, or its end. -/
  distance : DecodingFrom σ (Option Int)
  /-- The place of an instance across its strip of `2 ^ logStrips` rows. -/
  across (logStrips : Nat) : DecodingFrom σ Int
  symbolId : DecodingFrom σ Nat
  /-- Whether an instance is a refinement of its symbol. -/
  refined : DecodingFrom σ Bool
  deltas : DecodingFrom σ RefinementDeltas
  /-- Decode the pixels of a white bitmap as a refinement of a symbol. -/
  refine (params : RefinementParams) (symbol bitmap : Bitmap) : DecodingFrom σ Bitmap

/-- An instance apart from its place along the strip. -/
structure Glyph where
  /-- The place of the instance across its strip. -/
  across : Int
  id : Nat
  symbol : Bitmap
  /-- The refinement of the symbol that is shown in its place, if there is one. -/
  refined : Option Bitmap

/-- What is shown. -/
def Glyph.bitmap (glyph : Glyph) : Bitmap := glyph.refined.getD glyph.symbol

/-- An instance whose first pixel along S is at `s`, and whose corner is at `t` along T. -/
structure Instance where
  glyph : Glyph
  s : Int
  t : Int

namespace Values

section

variable {σ : Type} (values : Values σ) (params : Params)

/-- Read the distance to the next strip. -/
def readStripDistance : DecodingFrom σ Int := do
  checkSigned ((← values.stripDistance) * (1 <<< params.logStrips : Nat))

/-- The place in front of all strips. -/
def start : DecodingFrom σ Cursor := do
  let strip ← checkSigned (-(← values.readStripDistance params))
  return ⟨strip, 0, none⟩

/-- Go on to the next strip and the first instance in it. -/
def nextStrip (cursor : Cursor) : DecodingFrom σ (Cursor × Int) := do
  let strip ← checkSigned (cursor.strip + (← values.readStripDistance params))
  let first ← checkSigned (cursor.first + (← values.first))
  return ({ cursor with strip, first }, first)

/-- Go on to the next instance, in the same strip or in the next one. -/
def next (cursor : Cursor) : DecodingFrom σ (Cursor × Int) := do
  match cursor.last with
  | none => values.nextStrip params cursor
  | some last =>
    match ← values.distance with
    | some distance => return (cursor, ← Cursor.advance params last distance)
    | none => values.nextStrip params cursor

/-- Check that the last strip ends behind the last instance. -/
def finish (cursor : Cursor) : DecodingFrom σ Unit := do
  match cursor.last with
  | none => return ()
  | some last =>
    match ← values.distance with
    | some distance =>
      let _ ← Cursor.advance params last distance
      throw (.malformed .tooManyInstances)
    | none => return ()

/-- Read the bitmap of a refined instance. -/
def readRefinement (symbol : Bitmap) : DecodingFrom σ Bitmap := do
  let deltas ← values.deltas
  let width ← changeSize symbol.width deltas.width
  let height ← changeSize symbol.height deltas.height
  let dx ← checkSigned (deltas.width / 2 + deltas.x)
  let dy ← checkSigned (deltas.height / 2 + deltas.y)
  let bitmap ← Bitmap.create params.maxPixelCount width height
  values.refine (params.style.params dx dy) symbol bitmap

/-- Read the refinement of a symbol, if there is one. -/
def readRefined (symbol : Bitmap) : DecodingFrom σ (Option Bitmap) := do
  if params.refines then
    if ← values.refined then return some (← values.readRefinement params symbol) else return none
  else return none

/-- Read the place of an instance across its strip, unless all strips have one row. -/
def readAcross : DecodingFrom σ Int :=
  if params.logStrips = 0 then pure 0 else values.across params.logStrips

/-- Read the next instance. Where its corner is has no influence on that. -/
def readInstance (symbols : Array Bitmap) (cursor : Cursor) :
    DecodingFrom σ (Cursor × Instance) := do
  let (cursor, s) ← values.next params cursor
  let across ← values.readAcross params
  let t ← checkSigned (cursor.strip + across)
  let id ← values.symbolId
  let some symbol := symbols[id]? | throw (.malformed .symbolOutOfRange)
  let refined ← values.readRefined params symbol
  return (cursor, ⟨⟨across, id, symbol, refined⟩, s, t⟩)

/-- Draw `count` instances onto a region, from a place in it on. Also gives where they are. -/
def readInstances (symbols : Array Bitmap) : (count : Nat) → Cursor → (region : Bitmap) →
    (placed : Array Placement) → DecodingFrom σ (Bitmap × Array Placement)
  | 0, cursor, region, placed => do
    values.finish params cursor
    return (region, placed)
  | count + 1, cursor, region, placed => do
    let (cursor, i) ← values.readInstance params symbols cursor
    let (placement, last) ← params.layout.place i.glyph.id i.glyph.bitmap i.s i.t
    let region := region.combine i.glyph.bitmap placement.x placement.y params.operator
    readInstances symbols count { cursor with last := some last } region (placed.push placement)

/-- Draw all instances of a text region onto a bitmap. -/
def decodeInstances (symbols : Array Bitmap) (count : Nat) (region : Bitmap) :
    DecodingFrom σ (Bitmap × Array Placement) := do
  let cursor ← values.start params
  values.readInstances params symbols count cursor region #[]

end

/-! ## Values from a stream -/

/-- The values in a stream of decisions or Huffman codes. -/
def ofSource : Values Source where
  stripDistance := Source.readNumber .deltaStrip
  first := Source.readNumber .firstInStrip
  distance := Source.readValue .deltaInStrip
  across := Source.readAcross
  symbolId := Source.readSymbolId
  refined := Source.readRefined
  deltas := do
    let width ← Source.readNumber .refinedWidth
    let height ← Source.readNumber .refinedHeight
    let x ← Source.readNumber .refinedX
    let y ← Source.readNumber .refinedY
    return ⟨width, height, x, y⟩
  refine params symbol bitmap := do
    let data ← Source.readRefinementData
    Source.readRefinement data params symbol bitmap

variable (params : Params)

theorem next_ofSource (cursor : Cursor) : ofSource.next params cursor = cursor.next params := rfl

theorem readRefinement_ofSource (symbol : Bitmap) :
    ofSource.readRefinement params symbol = readRefinedInstance params symbol := by
  simp only [readRefinement, readRefinedInstance, ofSource, bind_assoc, pure_bind]

theorem readRefined_ofSource (symbol : Bitmap) :
    (do return (← ofSource.readRefined params symbol).getD symbol) =
      Text.readInstance params symbol := by
  unfold readRefined Text.readInstance
  rw [readRefinement_ofSource]
  split
  · rw [bind_assoc]
    refine bind_congr fun refined => ?_
    cases refined
    · rfl
    · simp
  · rfl

theorem readInstances_ofSource (symbols : Array Bitmap) (count : Nat) (cursor : Cursor)
    (region : Bitmap) (placed : Array Placement) :
    ofSource.readInstances params symbols count cursor region placed =
      Text.readInstances params symbols count cursor region placed := by
  induction count generalizing cursor region placed with
  | zero => rfl
  | succ count ih =>
    rw [readInstances, Text.readInstances, readInstance, next_ofSource, readAcross]
    simp only [bind_assoc]
    refine bind_congr fun next => ?_
    split <;>
    · refine bind_congr fun across => bind_congr fun t => bind_congr fun id => ?_
      cases symbols[id]? with
      | none => rfl
      | some symbol =>
        dsimp only
        rw [← readRefined_ofSource]
        simp only [bind_assoc, pure_bind, Glyph.bitmap, ih]

/-- The instances of a text region are read from the values in its stream. -/
theorem decodeInstances_ofSource (symbols : Array Bitmap) (count : Nat) (region : Bitmap) :
    Text.decodeInstances params symbols count region =
      ofSource.decodeInstances params symbols count region := by
  unfold Text.decodeInstances decodeInstances
  simp only [readInstances_ofSource]
  rfl

end Values
end Bilevel.Text

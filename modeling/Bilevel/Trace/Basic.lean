import Bilevel.Region.Refinement

/-!
# Traces

Decoding has effects that its result doesn't show. Memory is taken for every bitmap that is made,
also if nothing comes of it, and a coordinate in a reference may be one that no signed number of 32
bits can hold. A traced computation notes both while it goes on. Its trace stays if it fails.
-/

namespace Bilevel

/-- A bitmap that is to be decoded as a refinement of another. -/
structure Refining where
  params : RefinementParams
  reference : Bitmap
  /-- The bitmap into which pixels are decoded. -/
  bitmap : Bitmap
  deriving DecidableEq

/-- What is noted in a trace. -/
inductive Event where
  /-- A bitmap is made, or grows to this size. -/
  | made (width height : Nat)
  /-- A bitmap is decoded as a refinement, and a coordinate that is worked out for it doesn't fit, or
  all of them do. -/
  | refined (r : Refining) (overflows : Bool)
  deriving DecidableEq

/-- Whether a coordinate doesn't fit. -/
def Event.overflows : Event → Bool
  | made _ _ => false
  | refined _ overflows => overflows

/-- A computation that may fail and keeps a trace. -/
abbrev Tracing := EStateM DecodeError (Array Event)

namespace Tracing

variable {α : Type}

/-- The end of a computation, with the trace that it leaves. -/
def conclude (x : Except DecodeError α) (trace : Array Event) :
    EStateM.Result DecodeError (Array Event) α :=
  match x with
  | .ok a => .ok a trace
  | .error e => .error e trace

instance : MonadLift (Except DecodeError) Tracing := ⟨fun x trace => conclude x trace⟩

def note (event : Event) : Tracing Unit := fun trace => .ok () (trace.push event)

/-- Note that a bitmap is made. -/
def make (bitmap : Bitmap) : Tracing Bitmap := do
  note (.made bitmap.width bitmap.height)
  return bitmap

/-- What a computation notes. -/
def events (m : Tracing α) : Array Event :=
  match m #[] with
  | .ok _ trace | .error _ trace => trace

end Tracing

open Tracing

namespace Bitmap

/-- A white bitmap, if it has at most `maxPixels` pixels. -/
def createTraced (maxPixels width height : Nat) : Tracing Bitmap :=
  if width * height > maxPixels then throw (.unsupported .imageTooLarge)
  else make (blank width height)

/-- A window of at most `maxPixels` pixels. -/
def cropTraced (b : Bitmap) (maxPixels x y width height : Nat) : Tracing Bitmap :=
  if width * height > maxPixels then throw (.unsupported .imageTooLarge)
  else make (b.window x y width height)

end Bitmap

namespace Refining

/-- Decode the pixels of a refinement, and tell whether a coordinate doesn't fit. -/
def decodeWatched (r : Refining) (decoder : Mq.Decoder) (contexts : Mq.Contexts) :
    Except DecodeError (Bitmap × Mq.Contexts × Mq.Decoder) × Bool :=
  Refinement.decodeRowsWatched r.params r.reference r.bitmap.height 0 false false decoder contexts
    r.bitmap

/-- Decode the pixels of a refinement. -/
def decodeTraced (r : Refining) (decoder : Mq.Decoder) (contexts : Mq.Contexts) :
    Tracing (Bitmap × Mq.Contexts × Mq.Decoder) := do
  let (result, overflows) := r.decodeWatched decoder contexts
  note (.refined r overflows)
  result

end Refining

/-! ## Regions -/

/-- Decode the data of a generic region, where the length of the data was open or not. -/
def Generic.decodeRegionTraced (settings : DecodeSettings) (data : Bytes) (openLength : Bool) :
    Tracing Region := do
  let ((info, params), r) ← (readHeader settings).run (Reader.ofBytes data)
  let (info, coded) ← if openLength then splitRowCount info r.tail else pure (info, r.tail)
  let bitmap ← Bitmap.createTraced settings.maxPixelCount info.width info.height
  let (bitmap, _, _) ← decodeBitmap params (Mq.Decoder.ofBytes coded) params.freshContexts bitmap
  return ⟨info, bitmap⟩

/-- Decode the data of a refinement region. The reference has the size of the region. -/
def Refinement.decodeRegionTraced (settings : DecodeSettings) (data : Bytes) (reference : Bitmap) :
    Tracing Region := do
  let ((info, params), r) ← (readHeader settings).run (Reader.ofBytes data)
  if reference.width ≠ info.width ∨ reference.height ≠ info.height then
    throw (.malformed .invalidDimension)
  let bitmap ← Bitmap.createTraced settings.maxPixelCount info.width info.height
  let refining : Refining := ⟨params, reference, bitmap⟩
  let (bitmap, _, _) ←
    refining.decodeTraced (Mq.Decoder.ofBytes r.tail) params.freshContexts
  return ⟨info, bitmap⟩

end Bilevel

import Bilevel.Bits.Reader
import Bilevel.Bits.Writer

/-!
# Adaptive template pixels

A template is the set of pixels around the one that is being coded which form its context. Some of
them can be moved by the stream. Such a pixel has to come before the coded one, in the order of rows
and columns, if it lies in the same bitmap.
-/

namespace Bilevel

/-- A pixel relative to another. -/
structure AtPixel where
  x : Int
  y : Int
  deriving DecidableEq, Repr

namespace AtPixel

/-- Whether the pixel is coded before the one that it is relative to. -/
def causal (p : AtPixel) : Bool := decide (p.y < 0) || (decide (p.y = 0) && decide (p.x < 0))

def read : Reading AtPixel := do
  let x ← Reader.readSigned 1
  let y ← Reader.readSigned 1
  return ⟨x, y⟩

def write (w : Writer) (p : AtPixel) : Writer := w.writeSigned 1 p.x |>.writeSigned 1 p.y

/-- Read pixels that all have to be causal. -/
def readCausal : (count : Nat) → Reading (List AtPixel)
  | 0 => return []
  | count + 1 => do
    let p ← read
    if !p.causal then throw (.malformed .invalidAtPixel)
    return p :: (← readCausal count)

def writeAll (w : Writer) (pixels : List AtPixel) : Writer := pixels.foldl write w

end AtPixel
end Bilevel

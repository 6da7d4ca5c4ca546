import Bilevel.Bitmap.Combine
import Bilevel.Word

/-!
# Placing symbols

The instances of a text region run along the axis S, in strips that follow one another along the
axis T. S is the horizontal axis unless the region is transposed. The coordinates of an instance
are those of one of its corners; along S the choice of the corner makes no difference to where an
instance goes.
-/

namespace Bilevel.Text

/-- A corner of an instance. -/
inductive Corner where
  | bottomLeft
  | topLeft
  | bottomRight
  | topRight
  deriving DecidableEq, Repr

namespace Corner

def ofCode : Nat → Corner
  | 0 => bottomLeft
  | 1 => topLeft
  | 2 => bottomRight
  | _ => topRight

def code : Corner → Nat
  | bottomLeft => 0
  | topLeft => 1
  | bottomRight => 2
  | topRight => 3

def isLeft : Corner → Bool
  | bottomLeft | topLeft => true
  | _ => false

def isTop : Corner → Bool
  | topLeft | topRight => true
  | _ => false

end Corner

/-- Where an instance of a symbol is: the place of its top left corner in the region. -/
structure Placement where
  /-- The number of the symbol among those that the region can use. -/
  symbol : Nat
  x : Int
  y : Int
  deriving DecidableEq, Repr

/-- How coordinates along S and T become a place in the region. -/
structure Layout where
  corner : Corner
  transposed : Bool
  deriving DecidableEq, Repr

namespace Layout

/-- Whether the corner is the one at the end of the instance along S. -/
def atEnd (layout : Layout) : Bool :=
  if layout.transposed then !layout.corner.isTop else !layout.corner.isLeft

/-- Place an instance whose first pixel along S is at `s`. Also gives the place of its last
pixel. -/
def place (layout : Layout) (symbol : Nat) (bitmap : Bitmap) (s t : Int) :
    Except DecodeError (Placement × Int) := do
  let width ← checkSigned bitmap.width
  let height ← checkSigned bitmap.height
  let extent := if layout.transposed then height else width
  let s ← if layout.atEnd then checkSigned (s + (extent - 1)) else pure s
  let (alongX, alongY) := if layout.transposed then (t, s) else (s, t)
  let x ← if layout.corner.isLeft then pure alongX else checkSigned (alongX + (1 - width))
  let y ← if layout.corner.isTop then pure alongY else checkSigned (alongY + (1 - height))
  let last ← if layout.atEnd then pure s else checkSigned (s + (extent - 1))
  return (⟨symbol, x, y⟩, last)

end Layout
end Bilevel.Text

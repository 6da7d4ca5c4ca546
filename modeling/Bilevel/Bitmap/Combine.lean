import Bilevel.Bitmap.Basic

/-!
# Combining bitmaps

A region is drawn onto a page by applying a combination operator to every pixel of the page that
the region covers; the rest of the page stays as it is. A region that starts at a byte boundary and
is joined with OR is drawn byte by byte.
-/

namespace Bilevel

/-- How a pixel of a bitmap is combined with the one drawn over it. -/
inductive CombinationOperator where
  | or
  | and
  | xor
  | xnor
  | replace
  deriving DecidableEq, Repr, Inhabited

namespace CombinationOperator

/-- The operator with a given number. -/
def ofCode? : Nat → Option CombinationOperator
  | 0 => some .or
  | 1 => some .and
  | 2 => some .xor
  | 3 => some .xnor
  | 4 => some .replace
  | _ => none

/-- The number of an operator. -/
def code : CombinationOperator → Nat
  | .or => 0
  | .and => 1
  | .xor => 2
  | .xnor => 3
  | .replace => 4

theorem ofCode?_code (op : CombinationOperator) : ofCode? op.code = some op := by
  cases op <;> rfl

/-- The colour of a pixel `below` after the pixel `above` was drawn over it. -/
def apply : CombinationOperator → (below above : Bool) → Bool
  | .or, below, above => below || above
  | .and, below, above => below && above
  | .xor, below, above => below ^^ above
  | .xnor, below, above => !(below ^^ above)
  | .replace, _, above => above

end CombinationOperator

namespace Bitmap

/-- Draw the pixels of `other` over columns `left` to `right` and rows `top` to `bottom` of `b`,
the ends excluded. -/
def combinePixels (b other : Bitmap) (x y : Int) (op : CombinationOperator)
    (left right top bottom : Nat) : Bitmap :=
  (bottom - top).fold (fun j _ b =>
    (right - left).fold (fun i _ b =>
      let column := left + i
      let row := top + j
      let above := other.get (column - x).toNat (row - y).toNat
      b.set column row (op.apply (b.get column row) above)) b) b

/-- Join with OR whole bytes of the rows `top` to `bottom`, from byte `offset` of each row on. -/
def orRows (b other : Bitmap) (offset : Nat) (y : Int) (top bottom : Nat) : Bitmap :=
  let count := min other.stride (b.stride - offset)
  ofRows b.width b.height
    (Packed.orRows b.data b.stride offset top other.data other.stride (top - y).toNat
      (bottom - top) count)
    (by simpa using b.size_data)

/-- Draw `other` with its corner at column `x` of row `y`. Parts that fall outside are clipped. -/
def combine (b other : Bitmap) (x y : Int) (op : CombinationOperator) : Bitmap :=
  let left := max x 0
  let top := max y 0
  let right := min (x + other.width) b.width
  let bottom := min (y + other.height) b.height
  if right ≤ left ∨ bottom ≤ top then b
  else if op = .or ∧ 0 ≤ x ∧ x % 8 = 0 then
    b.orRows other (x / 8).toNat y top.toNat bottom.toNat
  else b.combinePixels other x y op left.toNat right.toNat top.toNat bottom.toNat

end Bitmap
end Bilevel

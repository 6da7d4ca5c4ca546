import Bilevel.Bitmap.Combine

/-!
# Checked access to bitmaps

The operations on bitmaps take bytes and rows of bytes from an array, at places that they compute.
Each of them comes here a second time, with every such place checked: there is no result if it isn't
in the array. No check fails. The size of a bitmap fits its data, and whatever lies outside of a
bitmap is left out before a place is computed. Only copying a row relies on what it is given: both
rows have to be rows of the bitmap.

## Main definitions

* `Bitmap.get?`, `Bitmap.set?`, `Bitmap.copyRow?`, `Bitmap.combine?`, `Bitmap.window?` — the checked
  operations.

## Main results

* `Bitmap.get?_eq`, `Bitmap.set?_eq`, `Bitmap.combine?_eq`, `Bitmap.window?_eq` — they give what
  those without checks do.
* `Bitmap.copyRow?_eq` — so does copying rows of the bitmap.
-/

namespace Bilevel

open Bits

/-- A loop that ends without a result if one of its turns does. -/
def foldChecked {α : Type} (n : Nat) (f : Nat → α → Option α) (init : α) : Option α :=
  n.fold (fun i _ a => a.bind (f i)) (some init)

/-- Every turn of a loop has a result if it has one wherever `P` holds, which every turn
preserves. -/
theorem foldChecked_eq {α : Type} {n : Nat} {f : Nat → α → Option α} {g : Nat → α → α}
    {init : α} (P : α → Prop) (hinit : P init)
    (h : ∀ i < n, ∀ a, P a → f i a = some (g i a) ∧ P (g i a)) :
    foldChecked n f init = some (n.fold (fun i _ a => g i a) init) ∧
      P (n.fold (fun i _ a => g i a) init) := by
  unfold foldChecked
  induction n with
  | zero => exact ⟨rfl, hinit⟩
  | succ n ih =>
    obtain ⟨hfold, hP⟩ := ih fun i hi => h i (by omega)
    rw [Nat.fold_succ, Nat.fold_succ, hfold]
    exact h n (by omega) _ hP

/-- The same where nothing needs to be preserved. -/
theorem foldChecked_eq_some {α : Type} {n : Nat} {f : Nat → α → Option α} {g : Nat → α → α}
    {init : α} (h : ∀ i < n, ∀ a, f i a = some (g i a)) :
    foldChecked n f init = some (n.fold (fun i _ a => g i a) init) :=
  (foldChecked_eq (fun _ => True) trivial fun i hi a _ => ⟨h i hi a, trivial⟩).1

namespace Packed

/-- Join rows of bytes, if the bytes that change are all there, and the rows that are joined with
them. -/
def orRows? (data : Bytes) (stride offset top : Nat) (other : Bytes) (stride' top' : Nat)
    (rows count : Nat) : Option Bytes :=
  foldChecked rows (fun j data =>
    if stride * (top + j) + offset + count ≤ data.size ∧
        stride' * (top' + j) + stride' ≤ other.size then
      some (orBytes data (stride * (top + j) + offset) other (stride' * (top' + j)) count)
    else none) data

theorem orRows?_eq {data : Bytes} {stride offset top : Nat} {other : Bytes}
    {stride' top' rows count : Nat}
    (h : ∀ j < rows, stride * (top + j) + offset + count ≤ data.size ∧
      stride' * (top' + j) + stride' ≤ other.size) :
    orRows? data stride offset top other stride' top' rows count =
      some (orRows data stride offset top other stride' top' rows count) := by
  refine (foldChecked_eq (fun changed => changed.size = data.size) rfl
    fun j hj changed hsize => ⟨if_pos (hsize ▸ h j hj), ?_⟩).1
  rw [size_orBytes, hsize]

end Packed

namespace Bitmap

variable (b other : Bitmap)

/-- The byte with a pixel is there. -/
theorem byte_lt {x y : Nat} (hx : x < b.width) (hy : y < b.height) :
    b.stride * y + x / 8 < b.data.size := by
  have hstride := Packed.le_stride b.width
  have hlt := Packed.bitIndex_lt (Nat.lt_of_lt_of_le hx hstride) hy
  rw [← b.size_data] at hlt
  unfold Packed.bitIndex at hlt
  unfold stride
  omega

/-- The bytes of a row are there. -/
theorem row_le {y : Nat} (hy : y < b.height) : b.stride * y + b.stride ≤ b.data.size := by
  have hle : b.stride * (y + 1) ≤ b.stride * b.height := Nat.mul_le_mul_left _ hy
  rw [b.size_data]
  exact hle

/-- Whether a pixel is black, if its byte is there. -/
def get? (x y : Nat) : Option Bool :=
  if x < b.width ∧ y < b.height then
    (b.data[b.stride * y + x / 8]?).map fun byte => ofByte byte (x % 8)
  else some false

theorem get?_eq (x y : Nat) : b.get? x y = some (b.get x y) := by
  unfold get?
  split
  · next h =>
    have hlt := b.byte_lt h.1 h.2
    have hindex : Packed.bitIndex b.width x y = 8 * (b.stride * y + x / 8) + x % 8 :=
      Packed.bitIndex_eq b.width x y
    rw [Array.getElem?_eq_getElem hlt, get, hindex, bitAt_eq hlt (Nat.mod_lt _ (by decide))]
    simp [h]
  · rw [get_eq_false (by omega)]

/-- Colour a pixel, if its byte is there. -/
def set? (x y : Nat) (black : Bool) : Option Bitmap :=
  if x < b.width ∧ y < b.height then
    if b.stride * y + x / 8 < b.data.size then some (b.set x y black) else none
  else some b

theorem set?_eq (x y : Nat) (black : Bool) : b.set? x y black = some (b.set x y black) := by
  unfold set?
  split
  · next h => rw [if_pos (b.byte_lt h.1 h.2)]
  · next h => rw [set, dif_neg h]

/-- Copy a row, if the bytes of both rows are there. -/
def copyRow? (source target : Nat) : Option Bitmap :=
  if b.stride * source + b.stride ≤ b.data.size ∧ b.stride * target + b.stride ≤ b.data.size then
    some (b.copyRow source target)
  else none

theorem copyRow?_eq {source target : Nat} (hsource : source < b.height)
    (htarget : target < b.height) : b.copyRow? source target = some (b.copyRow source target) :=
  if_pos ⟨b.row_le hsource, b.row_le htarget⟩

/-! ## Combining -/

/-- Draw pixels over others, if the bytes of all of them are there. -/
def combinePixels? (x y : Int) (op : CombinationOperator) (left right top bottom : Nat) :
    Option Bitmap :=
  foldChecked (bottom - top) (fun j b =>
    foldChecked (right - left) (fun i b => do
      let column := left + i
      let row := top + j
      let above ← other.get? (column - x).toNat (row - y).toNat
      b.set? column row (op.apply (← b.get? column row) above)) b) b

theorem combinePixels?_eq (x y : Int) (op : CombinationOperator) (left right top bottom : Nat) :
    b.combinePixels? other x y op left right top bottom =
      some (b.combinePixels other x y op left right top bottom) := by
  refine foldChecked_eq_some fun j _ b => foldChecked_eq_some fun i _ b => ?_
  simp only [get?_eq, set?_eq, Option.bind_eq_bind, Option.bind_some]

/-- The data of a bitmap behind drawing another one over it, if all bytes that this takes are
there. -/
def combine? (x y : Int) (op : CombinationOperator) : Option Bytes :=
  let left := max x 0
  let top := max y 0
  let right := min (x + other.width) b.width
  let bottom := min (y + other.height) b.height
  if right ≤ left ∨ bottom ≤ top then some b.data
  else if op = .or ∧ 0 ≤ x ∧ x % 8 = 0 then
    let offset := (x / 8).toNat
    (Packed.orRows? b.data b.stride offset top.toNat other.data other.stride
      (top.toNat - y).toNat (bottom.toNat - top.toNat)
      (min other.stride (b.stride - offset))).map (Packed.clearPadding b.width)
  else
    (b.combinePixels? other x y op left.toNat right.toNat top.toNat bottom.toNat).map (·.data)

theorem combine?_eq (x y : Int) (op : CombinationOperator) :
    b.combine? other x y op = some (b.combine other x y op).data := by
  unfold combine? combine
  extract_lets left top right bottom offset
  split
  · rfl
  · next hoverlap =>
    split
    · next haligned =>
      have hoffset : offset ≤ b.stride := by
        unfold stride Packed.stride
        omega
      have hrows : ∀ j < bottom.toNat - top.toNat,
          b.stride * (top.toNat + j) + offset + min other.stride (b.stride - offset) ≤
            b.data.size ∧
          other.stride * ((top.toNat - y).toNat + j) + other.stride ≤ other.data.size := by
        intro j hj
        have hrow := b.row_le (y := top.toNat + j) (by omega)
        exact ⟨by omega, other.row_le (by omega)⟩
      rw [Packed.orRows?_eq hrows]
      rfl
    · rw [combinePixels?_eq]
      rfl

/-! ## Windows -/

/-- A window, if the bytes of all its pixels are there. -/
def window? (x y width height : Nat) : Option Bitmap :=
  let columns := min (b.width - x) width
  let rows := min (b.height - y) height
  foldChecked rows (fun row out =>
    foldChecked columns (fun column out => do
      if ← b.get? (x + column) (y + row) then out.set? column row true else return out) out)
    (blank width height)

theorem window?_eq (x y width height : Nat) :
    b.window? x y width height = some (b.window x y width height) := by
  refine foldChecked_eq_some fun row _ out => foldChecked_eq_some fun column _ out => ?_
  simp only [get?_eq, set?_eq, Option.bind_eq_bind, Option.bind_some]
  split <;> rfl

end Bitmap
end Bilevel

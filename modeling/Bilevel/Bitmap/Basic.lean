import Bilevel.Bitmap.Packed
import Bilevel.Error

/-!
# Bitmaps

A bitmap is a rectangle of pixels, each black or white, stored in packed rows whose padding is
always clear. The view of a bitmap is `get`, which says whether a pixel is black; every operation
below comes with the pixels of its result, and two bitmaps of one size with the same pixels are
equal.
-/

namespace Bilevel

open Bits

/-- A bi-level image in packed rows. -/
structure Bitmap where
  width : Nat
  height : Nat
  data : Bytes
  size_data : data.size = Packed.size width height
  padding_clear : ∀ x y, width ≤ x → x < 8 * Packed.stride width → y < height →
    bitAt data (Packed.bitIndex width x y) = false

namespace Bitmap

/-- The number of bytes in a row. -/
def stride (b : Bitmap) : Nat := Packed.stride b.width

/-- Whether the pixel in column `x` of row `y` is black. Outside the bitmap all is white. -/
def get (b : Bitmap) (x y : Nat) : Bool :=
  decide (x < b.width) && decide (y < b.height) && bitAt b.data (Packed.bitIndex b.width x y)

/-- The pixel at signed coordinates. -/
def pixel (b : Bitmap) (x y : Int) : Bool :=
  decide (0 ≤ x) && decide (0 ≤ y) && b.get x.toNat y.toNat

theorem get_eq_false {b : Bitmap} {x y : Nat} (h : b.width ≤ x ∨ b.height ≤ y) :
    b.get x y = false := by
  rcases h with h | h <;> simp [get, Nat.not_lt.mpr h]

theorem bitAt_data {b : Bitmap} {x y : Nat} (hx : x < 8 * Packed.stride b.width)
    (hy : y < b.height) : bitAt b.data (Packed.bitIndex b.width x y) = b.get x y := by
  by_cases h : x < b.width
  · simp [get, h, hy]
  · rw [b.padding_clear x y (by omega) hx hy, get_eq_false (by omega)]

/-- A bitmap is determined by its size and its pixels. -/
theorem ext_get {a b : Bitmap} (hw : a.width = b.width) (hh : a.height = b.height)
    (h : ∀ x y, a.get x y = b.get x y) : a = b := by
  have hs : a.data.size = b.data.size := by rw [a.size_data, b.size_data, hw, hh]
  have hd : a.data = b.data := by
    apply bytes_ext hs
    intro i hi
    rw [a.size_data] at hi
    obtain ⟨x, y, hx, hy, rfl⟩ := Packed.exists_bitIndex hi
    rw [bitAt_data hx hy, h, hw, bitAt_data (hw ▸ hx) (hh ▸ hy)]
  cases a
  cases b
  simp_all

instance : DecidableEq Bitmap := fun a b =>
  if h : a.width = b.width ∧ a.height = b.height ∧ a.data = b.data then
    .isTrue (by cases a; cases b; simp_all)
  else .isFalse (by rintro rfl; simp at h)

/-! ## Making bitmaps -/

/-- The bitmap of packed rows, whatever their padding holds. -/
def ofRows (width height : Nat) (data : Bytes) (h : data.size = Packed.size width height) :
    Bitmap where
  width := width
  height := height
  data := Packed.clearPadding width data
  size_data := by simpa using h
  padding_clear x y hx hx' hy := by
    rw [Packed.bitAt_clearPadding h hx' hy]
    simp [Nat.not_lt.mpr hx]

theorem get_ofRows {width height : Nat} {data : Bytes} (h : data.size = Packed.size width height)
    (x y : Nat) : (ofRows width height data h).get x y =
      (decide (x < width) && decide (y < height) && bitAt data (Packed.bitIndex width x y)) := by
  by_cases hx : x < width
  · by_cases hy : y < height
    · have hx' : x < 8 * Packed.stride width := Nat.lt_of_lt_of_le hx (Packed.le_stride width)
      simp [get, ofRows, hx, hy, Packed.bitAt_clearPadding h hx' hy]
    · simp [get, ofRows, hy]
  · simp [get, ofRows, hx]

/-- The bitmap of packed rows, if there are as many bytes as its size needs. -/
def ofPacked (width height : Nat) (data : Bytes) : Option Bitmap :=
  if h : data.size = Packed.size width height then some (ofRows width height data h) else none

/-- Eight pixels of one colour. -/
def eight (black : Bool) : UInt8 := if black then 255 else 0

/-- A bitmap of one colour. -/
def filled (width height : Nat) (black : Bool) : Bitmap :=
  ofRows width height (Array.replicate (Packed.size width height) (eight black)) (by simp)

/-- A white bitmap. -/
def blank (width height : Nat) : Bitmap := filled width height false

theorem ofByte_eight (black : Bool) {k : Nat} (hk : k < 8) : ofByte (eight black) k = black := by
  cases black
  · simp [eight]
  · simp [eight, ofByte_255 hk]

theorem bitAt_replicate (n : Nat) (black : Bool) {i : Nat} (h : i < 8 * n) :
    bitAt (Array.replicate n (eight black)) i = black := by
  have hi : i / 8 < n := by omega
  simp [bitAt, hi, ofByte_eight black (Nat.mod_lt i (by decide))]

theorem get_filled (width height : Nat) (black : Bool) (x y : Nat) :
    (filled width height black).get x y =
      (decide (x < width) && decide (y < height) && black) := by
  unfold filled
  rw [get_ofRows]
  by_cases hx : x < width
  · by_cases hy : y < height
    · have hx' : x < 8 * Packed.stride width := Nat.lt_of_lt_of_le hx (Packed.le_stride width)
      rw [bitAt_replicate _ _ (Packed.bitIndex_lt hx' hy)]
    · simp [hy]
  · simp [hx]

@[simp] theorem get_blank (width height x y : Nat) : (blank width height).get x y = false := by
  simp [blank, get_filled]

/-- A white bitmap, if it has at most `maxPixels` pixels. -/
def create (maxPixels width height : Nat) : Except DecodeError Bitmap :=
  if width * height > maxPixels then .error (.unsupported .imageTooLarge)
  else .ok (blank width height)

/-! ## Single pixels -/

/-- Colour one pixel. Outside the bitmap nothing changes. -/
def set (b : Bitmap) (x y : Nat) (black : Bool) : Bitmap :=
  if h : x < b.width ∧ y < b.height then
    { b with
      data := setBit b.data (Packed.bitIndex b.width x y) black
      size_data := by simpa using b.size_data
      padding_clear := by
        intro x' y' hx hx' hy
        have hw := Packed.le_stride b.width
        have hlt := Packed.bitIndex_lt (Nat.lt_of_lt_of_le h.1 hw) h.2
        rw [← b.size_data] at hlt
        rw [bitAt_setBit _ _ _ _ hlt, if_neg]
        · exact b.padding_clear x' y' hx hx' hy
        · intro he
          have := Packed.bitIndex_inj hx' (Nat.lt_of_lt_of_le h.1 hw) he
          omega }
  else b

@[simp] theorem width_set (b : Bitmap) (x y : Nat) (black : Bool) :
    (b.set x y black).width = b.width := by
  unfold set
  split <;> rfl

@[simp] theorem height_set (b : Bitmap) (x y : Nat) (black : Bool) :
    (b.set x y black).height = b.height := by
  unfold set
  split <;> rfl

theorem get_set (b : Bitmap) (x y : Nat) (black : Bool) (x' y' : Nat) :
    (b.set x y black).get x' y' =
      if x' = x ∧ y' = y ∧ x < b.width ∧ y < b.height then black else b.get x' y' := by
  by_cases h : x < b.width ∧ y < b.height
  · have hw := Packed.le_stride b.width
    have hlt := Packed.bitIndex_lt (Nat.lt_of_lt_of_le h.1 hw) h.2
    rw [← b.size_data] at hlt
    by_cases h' : x' < b.width ∧ y' < b.height
    · have hne : Packed.bitIndex b.width x' y' = Packed.bitIndex b.width x y ↔
          x' = x ∧ y' = y :=
        ⟨Packed.bitIndex_inj (by omega) (by omega), by rintro ⟨rfl, rfl⟩; rfl⟩
      simp [get, set, h, h', bitAt_setBit _ _ _ _ hlt, hne]
    · rw [get_eq_false (by simp; omega), get_eq_false (by omega), if_neg (by omega)]
  · rw [if_neg (by omega)]
    simp only [set, h, dite_false]

/-! ## Rows -/

/-- The bytes of row `y`. -/
def row (b : Bitmap) (y : Nat) : Bytes := b.data.extract (b.stride * y) (b.stride * (y + 1))

/-- Whether the rows `y` and `y'` have the same pixels. -/
def sameRows (b : Bitmap) (y y' : Nat) : Bool := b.row y == b.row y'

private theorem bitAt_copyBytes_row (b : Bitmap) {source target : Nat} (ht : target < b.height)
    (hne : source ≠ target) {x y : Nat} (hx : x < 8 * Packed.stride b.width) :
    bitAt (Packed.copyBytes b.data (b.stride * source) (b.stride * target) b.stride)
        (Packed.bitIndex b.width x y) =
      bitAt b.data (Packed.bitIndex b.width x (if y = target then source else y)) := by
  have key : ∀ {i j : Nat}, i < j → b.stride * i + b.stride ≤ b.stride * j := by
    intro i j h
    have := Nat.mul_le_mul_left b.stride h
    rw [Nat.mul_succ] at this
    exact this
  have hsize : b.data.size = b.stride * b.height := b.size_data
  have hd : b.stride * source + b.stride ≤ b.stride * target ∨
      b.stride * target + b.stride ≤ b.stride * source := by
    rcases Nat.lt_or_gt_of_ne hne with h | h
    · exact .inl (key h)
    · exact .inr (key h)
  have hfit : b.stride * target + b.stride ≤ b.data.size := by rw [hsize]; exact key ht
  have hbit : ∀ (data : Bytes) (z : Nat), bitAt data (Packed.bitIndex b.width x z) =
      ofByte (data.getD (b.stride * z + x / 8) 0) (x % 8) :=
    fun data z => Packed.bitAt_bitIndex data b.width x z
  have hcol : x / 8 < b.stride := by unfold stride; omega
  rw [hbit, hbit, Packed.getD_copyBytes _ hd hfit]
  by_cases he : y = target
  · subst he
    rw [if_pos (by omega), if_pos rfl]
    congr 2
    omega
  · rw [if_neg he, if_neg]
    rcases Nat.lt_or_gt_of_ne he with h | h
    · have := key h
      omega
    · have := key h
      omega

/-- Make row `target` the same as row `source`. -/
def copyRow (b : Bitmap) (source target : Nat) : Bitmap :=
  if h : source < b.height ∧ target < b.height ∧ source ≠ target then
    { b with
      data := Packed.copyBytes b.data (b.stride * source) (b.stride * target) b.stride
      size_data := by simpa using b.size_data
      padding_clear := by
        intro x y hx hx' hy
        rw [bitAt_copyBytes_row b h.2.1 h.2.2 hx']
        apply b.padding_clear x _ hx hx'
        split
        · exact h.1
        · exact hy }
  else b

@[simp] theorem width_copyRow (b : Bitmap) (source target : Nat) :
    (b.copyRow source target).width = b.width := by
  unfold copyRow
  split <;> rfl

@[simp] theorem height_copyRow (b : Bitmap) (source target : Nat) :
    (b.copyRow source target).height = b.height := by
  unfold copyRow
  split <;> rfl

theorem get_copyRow (b : Bitmap) {source target : Nat} (hs : source < b.height)
    (ht : target < b.height) (x y : Nat) :
    (b.copyRow source target).get x y = b.get x (if y = target then source else y) := by
  by_cases hne : source = target
  · subst hne
    have : ¬(source < b.height ∧ source < b.height ∧ source ≠ source) := by simp
    simp only [copyRow, this, dite_false]
    split
    · next h => rw [h]
    · rfl
  · have h : source < b.height ∧ target < b.height ∧ source ≠ target := ⟨hs, ht, hne⟩
    by_cases hxy : x < b.width ∧ y < b.height
    · have hx : x < 8 * Packed.stride b.width :=
        Nat.lt_of_lt_of_le hxy.1 (Packed.le_stride b.width)
      have hy' : (if y = target then source else y) < b.height := by
        split
        · exact hs
        · exact hxy.2
      have := bitAt_copyBytes_row b (y := y) ht hne hx
      simp only [get, copyRow, h, ne_eq, not_false_eq_true, and_self, dite_true, hxy, hy', this]
    · rw [get_eq_false (by simp; omega), get_eq_false]
      by_cases he : y = target
      · omega
      · rw [if_neg he]
        omega

/-! ## Whole bitmaps -/

/-- Give every pixel one colour. -/
def fill (b : Bitmap) (black : Bool) : Bitmap := filled b.width b.height black

/-- Grow to `height` rows, if that is more than there are; the new rows have one colour. -/
def extendHeight (b : Bitmap) (height : Nat) (black : Bool) : Bitmap :=
  if h : b.height < height then
    let added := Packed.size b.width height - b.data.size
    ofRows b.width height (b.data ++ Array.replicate added (eight black)) (by
      have : b.data.size ≤ Packed.size b.width height := by
        rw [b.size_data]
        exact Nat.mul_le_mul_left _ (Nat.le_of_lt h)
      simp [added]
      omega)
  else b

@[simp] theorem width_extendHeight (b : Bitmap) (height : Nat) (black : Bool) :
    (b.extendHeight height black).width = b.width := by
  unfold extendHeight
  split <;> rfl

@[simp] theorem height_extendHeight (b : Bitmap) (height : Nat) (black : Bool) :
    (b.extendHeight height black).height = max b.height height := by
  unfold extendHeight
  split
  · simp only [ofRows]
    omega
  · omega

theorem get_extendHeight (b : Bitmap) (height : Nat) (black : Bool) (x y : Nat) :
    (b.extendHeight height black).get x y =
      if x < b.width ∧ b.height ≤ y ∧ y < height then black else b.get x y := by
  by_cases h : b.height < height
  · simp only [extendHeight, h, dite_true, get_ofRows]
    by_cases hx : x < b.width
    · by_cases hy : y < height
      · have hx' : x < 8 * Packed.stride b.width := Nat.lt_of_lt_of_le hx (Packed.le_stride b.width)
        have hlt := Packed.bitIndex_lt hx' hy
        by_cases hold : y < b.height
        · have hi := Packed.bitIndex_lt hx' hold
          rw [← b.size_data] at hi
          have hb : Packed.bitIndex b.width x y / 8 < b.data.size := by omega
          rw [if_neg (by omega)]
          simp [get, hx, hy, hold, bitAt, Array.getElem?_append, hb]
        · have hi : 8 * b.data.size ≤ Packed.bitIndex b.width x y := by
            have := Nat.mul_le_mul_left (Packed.stride b.width) (Nat.not_lt.mp hold)
            rw [b.size_data]
            unfold Packed.bitIndex Packed.size
            omega
          have hb : ¬Packed.bitIndex b.width x y / 8 < b.data.size := by omega
          have hn : Packed.bitIndex b.width x y / 8 - b.data.size <
              Packed.size b.width height - b.data.size := by omega
          rw [if_pos (by omega)]
          simp [hx, hy, bitAt, Array.getElem?_append, hb, hn,
            ofByte_eight black (Nat.mod_lt _ (by decide))]
      · rw [if_neg (by omega), get_eq_false (by omega)]
        simp [hy]
    · rw [if_neg (by omega), get_eq_false (by omega)]
      simp [hx]
  · rw [if_neg (by omega)]
    simp only [extendHeight, h, dite_false]

/-- The window of `width` columns and `height` rows with its corner at column `x` of row `y`. Its
parts outside the bitmap are white. -/
def window (b : Bitmap) (x y width height : Nat) : Bitmap :=
  let columns := min (b.width - x) width
  let rows := min (b.height - y) height
  rows.fold (fun row _ out =>
    columns.fold (fun column _ out =>
      if b.get (x + column) (y + row) then out.set column row true else out) out)
    (blank width height)

/-- A window of at most `maxPixels` pixels. -/
def crop (b : Bitmap) (maxPixels x y width height : Nat) : Except DecodeError Bitmap :=
  if width * height > maxPixels then .error (.unsupported .imageTooLarge)
  else .ok (b.window x y width height)

end Bitmap
end Bilevel

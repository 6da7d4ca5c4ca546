import Bilevel.Proofs.Bitmap.Rows

/-!
# Bytes and pixels

The bytes of a bitmap stand for its pixels and for nothing else: an operation on bytes is one on
pixels, equal pixels are equal bytes, and joining whole bytes is joining the pixels in them. All of
this needs the padding to be clear.

## Main definitions

* `Rows.Shows` — the size and the pixels that bytes stand for.
* `Rows.Pointwise` — what the operations on bytes do to pixels.

## Main results

* `Rows.combine_pointwise` — drawing one bitmap over another changes the pixels under it and no
  others, whether bytes or pixels are joined.
* `Rows.obtained_represents` — whatever the operations lead to represents its pixels.
-/

namespace Bilevel

open Bits

namespace Bitmap

/-- Joining whole bytes is joining the pixels in them. -/
theorem combine_eq_combinePixels (b other : Bitmap) (x y : Int) (op : CombinationOperator) :
    b.combine other x y op =
      b.combinePixels other x y op (max x 0).toNat (min (x + other.width) b.width).toNat
        (max y 0).toNat (min (y + other.height) b.height).toNat := by
  have hdrawn := painted_combine b other x y op
  have hpixels : b.Painted _ _ (b.combinePixels other x y op (max x 0).toNat
      (min (x + other.width) b.width).toNat (max y 0).toNat
      (min (y + other.height) b.height).toNat) :=
    painted_combinePixels (by omega) (by omega)
  refine ext_get (by rw [hdrawn.width, hpixels.width]) (by rw [hdrawn.height, hpixels.height])
    fun i j => ?_
  by_cases hunder : (i < b.width ∧ j < b.height) ∧ other.Under x y i j
  · rw [hdrawn.inside i j hunder, hpixels.inside i j]
    unfold Under at hunder
    omega
  · rw [hdrawn.outside i j hunder, hpixels.outside i j]
    unfold Under at hunder
    omega

/-- Rows have the same bytes just when they have the same pixels. -/
theorem row_eq_iff {b : Bitmap} {y y' : Nat} (hy : y < b.height) (hy' : y' < b.height) :
    b.row y = b.row y' ↔ ∀ x < b.width, b.get x y = b.get x y' := by
  refine ⟨fun h x _ => get_eq_of_sameRows hy hy' (beq_iff_eq.mpr h) x, fun h => ?_⟩
  have hsize {z : Nat} (hz : z < b.height) : (b.row z).size = b.stride := by
    have hend : b.stride * (z + 1) ≤ b.data.size := by
      rw [b.size_data]
      exact Nat.mul_le_mul_left _ hz
    rw [row, Array.size_extract, Nat.min_eq_left hend, Nat.mul_succ, Nat.add_sub_cancel_left]
  refine bytes_ext (by rw [hsize hy, hsize hy']) fun x hx => ?_
  rw [hsize hy] at hx
  rw [bitAt_row hx hy, bitAt_row hx hy']
  by_cases hin : x < b.width
  · exact h x hin
  · have hwide : b.width ≤ x := Nat.not_lt.mp hin
    rw [get_eq_false (.inl hwide), get_eq_false (.inl hwide)]

end Bitmap

namespace Rows

/-- The bytes stand for an image of `width` columns and `height` rows that is black where `black`
says so. -/
structure Shows (rows : Rows) (width height : Nat) (black : Nat → Nat → Bool) : Prop where
  width_eq : rows.width = width
  height_eq : rows.height = height
  get_eq : ∀ i < width, ∀ j < height, rows.get i j = black i j

/-- What the operations do to pixels. -/
structure Pointwise (rows : Rows) : Prop where
  set (x y : Nat) (black : Bool) :
    (rows.set x y black).Shows rows.width rows.height fun i j =>
      if i = x ∧ j = y then black else rows.get i j
  copyRow {source target : Nat} (hsource : source < rows.height) (htarget : target < rows.height) :
    (rows.copyRow source target).Shows rows.width rows.height fun i j =>
      if j = target then rows.get i source else rows.get i j
  fill (black : Bool) : (rows.fill black).Shows rows.width rows.height fun _ _ => black
  extendHeight (height : Nat) (black : Bool) :
    (rows.extendHeight height black).Shows rows.width (max rows.height height) fun i j =>
      if j < rows.height then rows.get i j else black
  crop {maxPixels width height : Nat} (hsize : width * height ≤ maxPixels) (x y : Nat) :
    ∃ part, rows.crop maxPixels x y width height = .ok part ∧
      part.Shows width height fun i j =>
        if x + i < rows.width ∧ y + j < rows.height then rows.get (x + i) (y + j) else false

end Rows

/-! ## What bitmaps show -/

namespace Bitmap

theorem shows_rows {b : Bitmap} {width height : Nat} {black : Nat → Nat → Bool}
    (hw : b.width = width) (hh : b.height = height)
    (h : ∀ i < width, ∀ j < height, b.get i j = black i j) : b.rows.Shows width height black :=
  ⟨hw, hh, h⟩

theorem shows_set (b : Bitmap) (x y : Nat) (black : Bool) :
    (b.set x y black).rows.Shows b.width b.height fun i j =>
      if i = x ∧ j = y then black else b.get i j := by
  refine shows_rows (b.width_set ..) (b.height_set ..) fun i hi j hj => ?_
  rw [get_set]
  by_cases hat : i = x ∧ j = y
  · obtain ⟨rfl, rfl⟩ := hat
    rw [if_pos ⟨rfl, rfl, hi, hj⟩, if_pos ⟨rfl, rfl⟩]
  · rw [if_neg fun h => hat ⟨h.1, h.2.1⟩, if_neg hat]

theorem shows_copyRow (b : Bitmap) {source target : Nat} (hsource : source < b.height)
    (htarget : target < b.height) :
    (b.copyRow source target).rows.Shows b.width b.height fun i j =>
      if j = target then b.get i source else b.get i j := by
  refine shows_rows (b.width_copyRow ..) (b.height_copyRow ..) fun i _ j _ => ?_
  rw [b.get_copyRow hsource htarget]
  split <;> rfl

theorem shows_fill (b : Bitmap) (black : Bool) :
    (b.fill black).rows.Shows b.width b.height fun _ _ => black := by
  refine shows_rows rfl rfl fun i hi j hj => ?_
  rw [fill, get_filled, decide_eq_true hi, decide_eq_true hj]
  rfl

theorem shows_extendHeight (b : Bitmap) (height : Nat) (black : Bool) :
    (b.extendHeight height black).rows.Shows b.width (max b.height height) fun i j =>
      if j < b.height then b.get i j else black := by
  refine shows_rows (b.width_extendHeight ..) (b.height_extendHeight ..) fun i hi j hj => ?_
  rw [get_extendHeight]
  by_cases hold : j < b.height
  · rw [if_neg (by omega), if_pos hold]
  · rw [if_pos (by omega), if_neg hold]

theorem shows_window (b : Bitmap) (x y width height : Nat) :
    (b.window x y width height).rows.Shows width height fun i j =>
      if x + i < b.width ∧ y + j < b.height then b.get (x + i) (y + j) else false := by
  refine shows_rows (b.width_window ..) (b.height_window ..) fun i hi j hj => ?_
  rw [get_window, decide_eq_true hi, decide_eq_true hj, Bool.true_and, Bool.true_and]
  split
  · rfl
  · exact get_eq_false (by omega)

theorem pointwise_rows (b : Bitmap) : b.rows.Pointwise where
  set x y black := b.rows_set x y black ▸ b.shows_set x y black
  copyRow hsource htarget := b.rows_copyRow hsource htarget ▸ b.shows_copyRow hsource htarget
  fill black := b.rows_fill black ▸ b.shows_fill black
  extendHeight height black := b.rows_extendHeight height black ▸ b.shows_extendHeight height black
  crop hsize x y :=
    ⟨_, if_neg (Nat.not_lt.mpr hsize), b.rows_window x y _ _ ▸ b.shows_window x y _ _⟩

theorem shows_combine (b c : Bitmap) (x y : Int) (op : CombinationOperator) :
    (b.combine c x y op).rows.Shows b.width b.height fun i j =>
      if (0 ≤ i - x ∧ i - x < c.width) ∧ 0 ≤ j - y ∧ j - y < c.height then
        op.apply (b.get i j) (c.get (i - x).toNat (j - y).toNat)
      else b.get i j := by
  refine shows_rows (b.width_combine ..) (b.height_combine ..) fun i hi j hj => ?_
  have hunder : (i < b.width ∧ j < b.height) ∧ c.Under x y i j ↔
      (0 ≤ i - x ∧ i - x < c.width) ∧ 0 ≤ j - y ∧ j - y < c.height := by
    unfold Under
    omega
  rw [get_combine]
  simp only [hunder]

end Bitmap

/-! ## What bytes stand for -/

namespace Rows

/-- Drawing bytes over others changes the pixels under them as the operator says, leaves all other
pixels and clears the padding. Pixel by pixel the result is the same, and drawing a bitmap over
another is drawing their bytes. -/
theorem combine_pointwise {rows other : Rows} (h : rows.WellFormed) (h' : other.WellFormed)
    (x y : Int) (op : CombinationOperator) :
    (rows.combine other x y op).WellFormed ∧
      ((rows.combine other x y op).Shows rows.width rows.height fun i j =>
        if (0 ≤ i - x ∧ i - x < other.width) ∧ 0 ≤ j - y ∧ j - y < other.height then
          op.apply (rows.get i j) (other.get (i - x).toNat (j - y).toNat)
        else rows.get i j) ∧
      rows.combine other x y op =
        rows.combinePixels other x y op (max x 0).toNat (min (x + other.width) rows.width).toNat
          (max y 0).toNat (min (y + other.height) rows.height).toNat ∧
      ∃ b c : Bitmap, b.rows = rows ∧ c.rows = other ∧
        (b.combine c x y op).rows = rows.combine other x y op := by
  obtain ⟨b, rfl⟩ := h.exists_bitmap
  obtain ⟨c, rfl⟩ := h'.exists_bitmap
  have hrows := b.rows_combine c x y op
  refine ⟨?_, ?_, ?_, b, c, rfl, rfl, hrows⟩
  · rw [← hrows]
    exact Bitmap.wellFormed_rows _
  · rw [← hrows]
    exact b.shows_combine c x y op
  · rw [← hrows, b.combine_eq_combinePixels]
    exact Bitmap.rows_combinePixels ..

/-- On a page of 20 columns the last four pixels of two rows are under a region of ten columns. The
region meets black pixels in the first of them, and what lies behind the page's edge is clipped. -/
theorem combine_pointwise_aligned :
    (Rows.mk 20 3 3 #[0, 0, 0, 0x1F, 0xF8, 0xA0, 0, 0, 0]).WellFormed ∧
      (Rows.mk 10 2 2 #[0xFF, 0xC0, 0xFF, 0xC0]).WellFormed ∧
      (Rows.mk 20 3 3 #[0, 0, 0, 0x1F, 0xF8, 0xA0, 0, 0, 0]).combine
        (Rows.mk 10 2 2 #[0xFF, 0xC0, 0xFF, 0xC0]) 16 1 .or =
          Rows.mk 20 3 3 #[0, 0, 0, 0x1F, 0xF8, 0xF0, 0, 0, 0xF0] ∧
      (Rows.mk 20 3 3 #[0, 0, 0, 0x1F, 0xF8, 0xF0, 0, 0, 0xF0]).WellFormed ∧
      (Rows.mk 20 3 3 #[0, 0, 0, 0x1F, 0xF8, 0xA0, 0, 0, 0]).combinePixels
        (Rows.mk 10 2 2 #[0xFF, 0xC0, 0xFF, 0xC0]) 16 1 .or 16 20 1 3 =
          Rows.mk 20 3 3 #[0, 0, 0, 0x1F, 0xF8, 0xF0, 0, 0, 0xF0] := by
  have hpage : ofPacked 20 3 #[0, 0, 0, 0x1F, 0xF8, 0xA0, 0, 0, 0] =
      some (Rows.mk 20 3 3 #[0, 0, 0, 0x1F, 0xF8, 0xA0, 0, 0, 0]) := by decide +kernel
  have hregion : ofPacked 10 2 #[0xFF, 0xC0, 0xFF, 0xC0] =
      some (Rows.mk 10 2 2 #[0xFF, 0xC0, 0xFF, 0xC0]) := by decide +kernel
  have hpage := obtained_iff.mp (.ofPacked hpage)
  have hregion := obtained_iff.mp (.ofPacked hregion)
  obtain ⟨hformed, -, hpixels, -⟩ := combine_pointwise hpage hregion 16 1 .or
  have hcombine : (Rows.mk 20 3 3 #[0, 0, 0, 0x1F, 0xF8, 0xA0, 0, 0, 0]).combine
      (Rows.mk 10 2 2 #[0xFF, 0xC0, 0xFF, 0xC0]) 16 1 .or =
        Rows.mk 20 3 3 #[0, 0, 0, 0x1F, 0xF8, 0xF0, 0, 0, 0xF0] := by decide +kernel
  exact ⟨hpage, hregion, hcombine, hcombine ▸ hformed, hpixels.symm.trans hcombine⟩

/-- Whatever the operations lead to has clear padding, the operations on it are pointwise, and a
bitmap follows it through all of them. So it represents its pixels: the same pixels are the same
bytes, in the whole as in the rows, and its bytes can be read back. -/
theorem obtained_represents {rows : Rows} (h : rows.Obtained) :
    rows.WellFormed ∧ rows.Pointwise ∧ (∃ b : Bitmap, b.Follows rows) ∧
      (∀ other : Rows, other.Obtained →
        (rows = other ↔ rows.width = other.width ∧ rows.height = other.height ∧
          ∀ x < rows.width, ∀ y < rows.height, rows.get x y = other.get x y)) ∧
      (∀ y < rows.height, ∀ y' < rows.height,
        (rows.row y = rows.row y' ↔ ∀ x < rows.width, rows.get x y = rows.get x y')) ∧
      ofPacked rows.width rows.height rows.data = some rows := by
  have hformed := obtained_iff.mp h
  obtain ⟨b, rfl⟩ := h.exists_bitmap
  refine ⟨hformed, b.pointwise_rows, ⟨b, b.follows_rows⟩, fun other hother => ?_,
    fun y hy y' hy' => ?_, hformed.ofPacked_eq⟩
  · obtain ⟨c, rfl⟩ := hother.exists_bitmap
    refine ⟨fun heq => heq ▸ ⟨rfl, rfl, fun _ _ _ _ => rfl⟩, fun ⟨hw, hh, hget⟩ => ?_⟩
    refine congrArg Bitmap.rows (Bitmap.ext_get hw hh fun x y => ?_)
    by_cases hin : x < b.width ∧ y < b.height
    · exact hget x hin.1 y hin.2
    · have hout : c.width ≤ x ∨ c.height ≤ y := by
        rw [Bitmap.width_rows, Bitmap.width_rows] at hw
        rw [Bitmap.height_rows, Bitmap.height_rows] at hh
        omega
      rw [Bitmap.get_eq_false (by omega), Bitmap.get_eq_false hout]
  · exact b.row_eq_iff hy hy'

/-- Three pixels blackened in two rows, and a third row added to them. -/
theorem obtained_represents_blackened :
    (((blank 3 2).fill true).extendHeight 3 true).Obtained ∧
      ((blank 3 2).fill true).extendHeight 3 true = Rows.mk 3 3 1 #[0xE0, 0xE0, 0xE0] ∧
      ofPacked 3 3 #[0xE0, 0xE0, 0xE0] = some (((blank 3 2).fill true).extendHeight 3 true) := by
  have hobtained : (((blank 3 2).fill true).extendHeight 3 true).Obtained :=
    .extendHeight (.fill (.blank 3 2) true) 3 true
  have hdata : ((blank 3 2).fill true).extendHeight 3 true = Rows.mk 3 3 1 #[0xE0, 0xE0, 0xE0] := by
    decide +kernel
  obtain ⟨-, -, -, -, -, hpacked⟩ := obtained_represents hobtained
  exact ⟨hobtained, hdata, by rwa [hdata] at hpacked ⊢⟩

end Rows
end Bilevel

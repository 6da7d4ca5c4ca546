import Bilevel.Bitmap.Combine
import Bilevel.Proofs.Bits.Stream

/-!
# Pixels of drawn bitmaps

Drawing goes over the pixels of a rectangle, or over the bytes of its rows. Either way a pixel in
the rectangle is combined with the one that is drawn over it, and all others stay as they are.

## Main results

* `Bitmap.get_combine` — drawing one bitmap over another.
* `Bitmap.get_window` — cutting a window out of a bitmap.
-/

namespace Bilevel

open Bits

namespace Bitmap

/-! ## Blank bitmaps -/

/-- A bitmap of too many pixels isn't made. -/
theorem create_eq_ok {maxPixels width height : Nat} {b : Bitmap} :
    create maxPixels width height = .ok b ↔
      width * height ≤ maxPixels ∧ b = blank width height := by
  unfold create
  split
  · next h => simp [Nat.not_le.mpr h]
  · next h => simp [Nat.not_lt.mp h, eq_comm]

theorem create_eq {maxPixels width height : Nat} (h : width * height ≤ maxPixels) :
    create maxPixels width height = .ok (blank width height) := create_eq_ok.mpr ⟨h, rfl⟩

/-! ## Painting -/

/-- From `b` to `b'` the pixels in `region` have changed their colours. -/
structure Painted (b : Bitmap) (region : Nat → Nat → Prop) (colour : Nat → Nat → Bool → Bool)
    (b' : Bitmap) : Prop where
  width : b'.width = b.width
  height : b'.height = b.height
  inside : ∀ x y, region x y → b'.get x y = colour x y (b.get x y)
  outside : ∀ x y, ¬region x y → b'.get x y = b.get x y

/-- Painting disjoint regions one after another. -/
theorem Painted.fold {b : Bitmap} {n : Nat} (region : Nat → Nat → Nat → Prop)
    {colour : Nat → Nat → Bool → Bool} {step : (i : Nat) → i < n → Bitmap → Bitmap}
    (hstep : ∀ i hi (c : Bitmap), c.width = b.width → c.height = b.height →
      c.Painted (region i) colour (step i hi c))
    (hdisjoint : ∀ i j x y, region i x y → region j x y → i = j) :
    b.Painted (fun x y => ∃ i < n, region i x y) colour (n.fold step b) := by
  induction n with
  | zero => exact ⟨rfl, rfl, fun x y ⟨i, hi, _⟩ => absurd hi (Nat.not_lt_zero i), fun _ _ _ => rfl⟩
  | succ n ih =>
    have hprev := ih fun i hi c => hstep i (Nat.lt_succ_of_lt hi) c
    have hlast := hstep n (Nat.lt_succ_self n) _ hprev.width hprev.height
    rw [Nat.fold_succ]
    refine ⟨hlast.width.trans hprev.width, hlast.height.trans hprev.height, ?_, ?_⟩
    · rintro x y ⟨i, hi, hregion⟩
      by_cases hn : region n x y
      · have hnot : ¬∃ i < n, region i x y := fun ⟨j, hj, hj'⟩ =>
          absurd (hdisjoint j n x y hj' hn) (Nat.ne_of_lt hj)
        rw [hlast.inside x y hn, hprev.outside x y hnot]
      · have hlt : i < n := by
          rcases Nat.lt_succ_iff_lt_or_eq.mp hi with hlt | rfl
          · exact hlt
          · exact absurd hregion hn
        rw [hlast.outside x y hn, hprev.inside x y ⟨i, hlt, hregion⟩]
    · intro x y hnot
      have hn : ¬region n x y := fun h => hnot ⟨n, Nat.lt_succ_self n, h⟩
      have hprev' : ¬∃ i < n, region i x y :=
        fun ⟨i, hi, h⟩ => hnot ⟨i, Nat.lt_succ_of_lt hi, h⟩
      rw [hlast.outside x y hn, hprev.outside x y hprev']

/-- Painting row by row and column by column. -/
theorem Painted.fold_fold {b : Bitmap} {left top columns rows : Nat}
    {colour : Nat → Nat → Bool → Bool} {step : Nat → Nat → Bitmap → Bitmap}
    (hstep : ∀ j < rows, ∀ i < columns, ∀ c : Bitmap, c.width = b.width → c.height = b.height →
      c.Painted (fun x y => x = left + i ∧ y = top + j) colour (step j i c)) :
    b.Painted (fun x y => left ≤ x ∧ x < left + columns ∧ top ≤ y ∧ y < top + rows) colour
      (rows.fold (fun j _ c => columns.fold (fun i _ c => step j i c) c) b) := by
  have hrow : ∀ j, j < rows → ∀ c : Bitmap, c.width = b.width → c.height = b.height →
      c.Painted (fun x y => y = top + j ∧ left ≤ x ∧ x < left + columns) colour
        (columns.fold (fun i _ c => step j i c) c) := by
    intro j hj c hw hh
    have hfold := Painted.fold (n := columns) (fun i x y => x = left + i ∧ y = top + j)
      (fun i hi d hdw hdh => hstep j hj i hi d (hdw.trans hw) (hdh.trans hh))
      (fun i j' x y h h' => by omega)
    refine ⟨hfold.width, hfold.height, fun x y h => hfold.inside x y ⟨x - left, ?_, ?_⟩,
      fun x y h => hfold.outside x y fun ⟨i, hi, hi'⟩ => h ?_⟩ <;> omega
  have hfold := Painted.fold (n := rows)
    (fun j x y => y = top + j ∧ left ≤ x ∧ x < left + columns)
    (fun j hj c hw hh => hrow j hj c hw hh) (fun i j x y h h' => by omega)
  refine ⟨hfold.width, hfold.height, fun x y h => hfold.inside x y ⟨y - top, ?_, ?_⟩,
    fun x y h => hfold.outside x y fun ⟨i, hi, hi'⟩ => h ?_⟩ <;> omega

/-- Colouring one pixel. -/
theorem painted_set {b : Bitmap} {x y : Nat} (hx : x < b.width) (hy : y < b.height)
    (colour : Nat → Nat → Bool → Bool) :
    b.Painted (fun x' y' => x' = x ∧ y' = y) colour (b.set x y (colour x y (b.get x y))) := by
  refine ⟨width_set .., height_set .., ?_, ?_⟩
  · rintro x' y' ⟨rfl, rfl⟩
    rw [get_set, if_pos ⟨rfl, rfl, hx, hy⟩]
  · intro x' y' h
    rw [get_set, if_neg fun h' => h ⟨h'.1, h'.2.1⟩]

/-! ## Whole bytes -/

theorem getD_orRows (data : Bytes) {stride offset top : Nat} (other : Bytes)
    {stride' top' rows count : Nat} (hcount : offset + count ≤ stride)
    (hrows : stride * (top + rows) ≤ data.size) {row column : Nat} (hcolumn : column < stride) :
    (Packed.orRows data stride offset top other stride' top' rows count).getD
        (stride * row + column) 0 =
      if (top ≤ row ∧ row < top + rows) ∧ offset ≤ column ∧ column < offset + count then
        data.getD (stride * row + column) 0 |||
          other.getD (stride' * (top' + (row - top)) + (column - offset)) 0
      else data.getD (stride * row + column) 0 := by
  induction rows with
  | zero =>
    rw [if_neg (by omega)]
    simp [Packed.orRows]
  | succ n ih =>
    have hn : stride * (top + n) + stride ≤ data.size := by
      rw [← Nat.mul_succ]
      exact hrows
    have ih := ih (by omega)
    have hstep : Packed.orRows data stride offset top other stride' top' (n + 1) count =
        Packed.orBytes (Packed.orRows data stride offset top other stride' top' n count)
          (stride * (top + n) + offset) other (stride' * (top' + n)) count := by
      simp [Packed.orRows]
    have hplace : stride * (top + n) + offset ≤ stride * row + column ∧
        stride * row + column < stride * (top + n) + offset + count ↔
          row = top + n ∧ offset ≤ column ∧ column < offset + count := by
      rcases Nat.lt_trichotomy row (top + n) with h | rfl | h
      · have := Nat.mul_le_mul_left stride h
        rw [Nat.mul_succ] at this
        omega
      · omega
      · have := Nat.mul_le_mul_left stride h
        rw [Nat.mul_succ] at this
        omega
    rw [hstep, Packed.getD_orBytes _ _ (by simp; omega), ih]
    simp only [hplace]
    by_cases hrow : row = top + n
    · subst hrow
      have hlt : ¬(top + n < top + n) := Nat.lt_irrefl _
      by_cases hin : offset ≤ column ∧ column < offset + count
      · simp only [hlt, hin, and_false, false_and, if_false, and_self, if_true,
          Nat.le_add_right, Nat.add_lt_add_iff_left, Nat.lt_succ_self, Nat.add_sub_cancel_left]
        congr 2
        omega
      · simp [hin]
    · have hiff : (top ≤ row ∧ row < top + (n + 1)) ↔ (top ≤ row ∧ row < top + n) := by omega
      simp [hrow, hiff]

@[simp] theorem width_orRows (b other : Bitmap) (offset : Nat) (y : Int) (top bottom : Nat) :
    (b.orRows other offset y top bottom).width = b.width := rfl

@[simp] theorem height_orRows (b other : Bitmap) (offset : Nat) (y : Int) (top bottom : Nat) :
    (b.orRows other offset y top bottom).height = b.height := rfl

/-- A pixel is a bit of the byte in its column. -/
theorem get_eq_ofByte {b : Bitmap} {x y : Nat} (hx : x < 8 * b.stride) (hy : y < b.height) :
    b.get x y = ofByte (b.data.getD (b.stride * y + x / 8) 0) (x % 8) :=
  (bitAt_data hx hy).symm.trans (Packed.bitAt_bitIndex b.data b.width x y)

/-- Joining whole bytes joins the pixels in them, since the padding of `other` is clear. -/
theorem get_orRows {b other : Bitmap} {offset top bottom : Nat} {y : Int} (y' : Nat)
    (hoffset : offset ≤ b.stride) (htop : y ≤ top) (hle : top ≤ bottom) (hbottom : bottom ≤ b.height)
    (hother : bottom ≤ y + other.height) {x' : Nat} (hx' : x' < b.width) :
    (b.orRows other offset y top bottom).get x' y' =
      if top ≤ y' ∧ y' < bottom ∧ 8 * offset ≤ x' then
        (b.get x' y' || other.get (x' - 8 * offset) (y' - y).toNat)
      else b.get x' y' := by
  by_cases hy' : y' < b.height
  swap
  · rw [get_eq_false (by simp; omega), get_eq_false (by omega), if_neg (by omega)]
  have hstride := Packed.le_stride b.width
  have hcolumn : x' / 8 < b.stride := by
    unfold stride
    omega
  have hsize : b.stride * (top + (bottom - top)) ≤ b.data.size := by
    rw [Nat.add_sub_cancel' hle, b.size_data]
    exact Nat.mul_le_mul_left _ hbottom
  have hget := get_eq_ofByte (b := b) (Nat.lt_of_lt_of_le hx' hstride) hy'
  have hbyte : Packed.stride b.width * y' + x' / 8 = b.stride * y' + x' / 8 := rfl
  unfold orRows
  rw [get_ofRows, decide_eq_true hx', decide_eq_true hy', Bool.true_and, Bool.true_and,
    Packed.bitAt_bitIndex, hbyte, getD_orRows b.data other.data (by omega) hsize hcolumn]
  by_cases hin : top ≤ y' ∧ y' < bottom ∧ 8 * offset ≤ x'
  swap
  · rw [if_neg hin, if_neg (by omega), hget]
  rw [if_pos hin]
  obtain ⟨h1, h2, h3⟩ := hin
  have hrow : (top - y).toNat + (y' - top) = (y' - y).toNat := by omega
  by_cases hend : (x' - 8 * offset) / 8 < other.stride
  · rw [if_pos (by omega), ofByte_or, ← hget]
    congr 1
    rw [hrow, get_eq_ofByte (b := other) (by omega) (by omega),
      show (x' - 8 * offset) / 8 = x' / 8 - offset by omega,
      show (x' - 8 * offset) % 8 = x' % 8 by omega]
  · have hwide := Packed.le_stride other.width
    rw [if_neg (by omega), ← hget, get_eq_false (b := other), Bool.or_false]
    unfold stride at hend
    omega

/-! ## Combining -/

/-- The pixels of a bitmap on which `other` lies when its corner is at column `x` of row `y`. -/
def Under (other : Bitmap) (x y : Int) (x' y' : Nat) : Prop :=
  (x ≤ x' ∧ x' < x + other.width) ∧ y ≤ y' ∧ y' < y + other.height

instance (other : Bitmap) (x y : Int) (x' y' : Nat) : Decidable (other.Under x y x' y') :=
  inferInstanceAs (Decidable (_ ∧ _))

/-- The colour that drawing `other` gives to a pixel of colour `below`. -/
def colourOver (other : Bitmap) (x y : Int) (op : CombinationOperator) (x' y' : Nat)
    (below : Bool) : Bool :=
  op.apply below (other.get (x' - x).toNat (y' - y).toNat)

theorem painted_combinePixels {b other : Bitmap} {x y : Int} {op : CombinationOperator}
    {left right top bottom : Nat} (hright : right ≤ b.width) (hbottom : bottom ≤ b.height) :
    b.Painted (fun x' y' => left ≤ x' ∧ x' < left + (right - left) ∧ top ≤ y' ∧
        y' < top + (bottom - top)) (other.colourOver x y op)
      (b.combinePixels other x y op left right top bottom) := by
  refine Painted.fold_fold fun j hj i hi c hw hh => ?_
  exact painted_set (by omega) (by omega) _

theorem painted_orRows {b other : Bitmap} {x y : Int} {top bottom : Nat} (hx : 0 ≤ x)
    (hdiv : x % 8 = 0) (hstart : x ≤ b.width) (htop : y ≤ top) (hle : top ≤ bottom)
    (hbottom : bottom ≤ b.height) (hother : bottom ≤ y + other.height) :
    b.Painted (fun x' y' => (x ≤ x' ∧ x' < b.width ∧ x' < x + other.width) ∧ top ≤ y' ∧ y' < bottom)
      (other.colourOver x y .or) (b.orRows other (x / 8).toNat y top bottom) := by
  have hoffset : (x / 8).toNat ≤ b.stride := by
    unfold stride Packed.stride
    omega
  have hget {x' y' : Nat} (hx' : x' < b.width) :=
    get_orRows y' hoffset htop hle hbottom hother hx'
  refine ⟨rfl, rfl, fun x' y' h => ?_, fun x' y' h => ?_⟩
  · have hcolumn : x' - 8 * (x / 8).toNat = (x' - x).toNat := by omega
    rw [hget h.1.2.1, if_pos (by omega), hcolumn]
    rfl
  · by_cases hx' : x' < b.width
    · rw [hget hx']
      split
      · next hin =>
        have hwide : other.width ≤ x' - 8 * (x / 8).toNat := by omega
        rw [get_eq_false (b := other) (.inl hwide), Bool.or_false]
      · rfl
    · rw [get_eq_false (by simp; omega), get_eq_false (by omega)]

/-- Drawing one bitmap over another. -/
theorem painted_combine (b other : Bitmap) (x y : Int) (op : CombinationOperator) :
    b.Painted (fun x' y' => (x' < b.width ∧ y' < b.height) ∧ other.Under x y x' y')
      (other.colourOver x y op) (b.combine other x y op) := by
  unfold combine Under
  simp only
  split
  · refine ⟨rfl, rfl, fun x' y' h => ?_, fun _ _ _ => rfl⟩
    omega
  split
  · next hempty hbytes =>
    obtain ⟨rfl, hx, hdiv⟩ := hbytes
    have hpaint : b.Painted _ _ (b.orRows other (x / 8).toNat y (max y 0).toNat
        (min (y + other.height) b.height).toNat) :=
      painted_orRows hx hdiv (by omega) (by omega) (by omega) (by omega) (by omega)
    refine ⟨hpaint.width, hpaint.height, fun x' y' h => hpaint.inside x' y' ?_,
      fun x' y' h => hpaint.outside x' y' fun h' => h ?_⟩ <;> omega
  · have hpaint : b.Painted _ _ (b.combinePixels other x y op (max x 0).toNat
        (min (x + other.width) b.width).toNat (max y 0).toNat
        (min (y + other.height) b.height).toNat) :=
      painted_combinePixels (by omega) (by omega)
    refine ⟨hpaint.width, hpaint.height, fun x' y' h => hpaint.inside x' y' ?_,
      fun x' y' h => hpaint.outside x' y' fun h' => h ?_⟩ <;> omega

@[simp] theorem width_combine (b other : Bitmap) (x y : Int) (op : CombinationOperator) :
    (b.combine other x y op).width = b.width := (painted_combine b other x y op).width

@[simp] theorem height_combine (b other : Bitmap) (x y : Int) (op : CombinationOperator) :
    (b.combine other x y op).height = b.height := (painted_combine b other x y op).height

/-- The pixels of a bitmap after another was drawn over it. -/
theorem get_combine (b other : Bitmap) (x y : Int) (op : CombinationOperator) (x' y' : Nat) :
    (b.combine other x y op).get x' y' =
      if (x' < b.width ∧ y' < b.height) ∧ other.Under x y x' y' then
        op.apply (b.get x' y') (other.get (x' - x).toNat (y' - y).toNat)
      else b.get x' y' := by
  have hpaint := painted_combine b other x y op
  split
  · next h => exact hpaint.inside x' y' h
  · next h => exact hpaint.outside x' y' h

/-- A pixel of a bitmap that is joined with another is black if it is black in one of them. -/
theorem get_combine_or (b other : Bitmap) (x y : Int) (x' y' : Nat) :
    (b.combine other x y .or).get x' y' =
      (b.get x' y' || (decide (x' < b.width ∧ y' < b.height) &&
        other.pixel (x' - x) (y' - y))) := by
  rw [get_combine]
  by_cases hin : x' < b.width ∧ y' < b.height
  swap
  · simp [hin]
  by_cases hunder : other.Under x y x' y'
  · unfold Under at hunder
    have hx : (0 : Int) ≤ x' - x := by omega
    have hy : (0 : Int) ≤ y' - y := by omega
    rw [if_pos ⟨hin, hunder⟩, decide_eq_true hin, pixel, decide_eq_true hx, decide_eq_true hy]
    rfl
  · have hpixel : other.pixel (x' - x) (y' - y) = false := by
      unfold Under at hunder
      unfold pixel
      by_cases hsign : (0 : Int) ≤ x' - x ∧ (0 : Int) ≤ y' - y
      · rw [get_eq_false (by omega), Bool.and_false]
      · rcases Decidable.not_and_iff_not_or_not.mp hsign with h | h
        · rw [decide_eq_false h, Bool.false_and, Bool.false_and]
        · rw [decide_eq_false h, Bool.and_false, Bool.false_and]
    rw [if_neg fun h => hunder h.2, hpixel, Bool.and_false, Bool.or_false]

/-- Bitmaps are joined in any order. -/
theorem combine_or_comm (b first second : Bitmap) (x₁ y₁ x₂ y₂ : Int) :
    (b.combine first x₁ y₁ .or).combine second x₂ y₂ .or =
      (b.combine second x₂ y₂ .or).combine first x₁ y₁ .or := by
  refine ext_get (by simp) (by simp) fun x y => ?_
  simp only [get_combine_or, width_combine, height_combine]
  rw [Bool.or_assoc, Bool.or_assoc, Bool.or_comm (_ && _)]

/-- A bitmap is what its packed rows stand for. -/
theorem ofPacked_data (b : Bitmap) : ofPacked b.width b.height b.data = some b := by
  rw [ofPacked, dif_pos b.size_data]
  exact congrArg some (ext_get rfl rfl fun x y => get_ofRows b.size_data x y)

/-! ## Windows -/

theorem painted_window (b : Bitmap) (x y width height : Nat) :
    (blank width height).Painted
      (fun x' y' => 0 ≤ x' ∧ x' < 0 + min (b.width - x) width ∧ 0 ≤ y' ∧
        y' < 0 + min (b.height - y) height)
      (fun x' y' below => below || b.get (x + x') (y + y')) (b.window x y width height) := by
  refine Painted.fold_fold fun j hj i hi c hw hh => ?_
  have hx : i < c.width := by
    rw [hw]
    exact Nat.lt_of_lt_of_le hi (Nat.min_le_right _ _)
  have hy : j < c.height := by
    rw [hh]
    exact Nat.lt_of_lt_of_le hj (Nat.min_le_right _ _)
  have hset := painted_set hx hy fun x' y' below => below || b.get (x + x') (y + y')
  rw [Nat.zero_add, Nat.zero_add]
  cases hpixel : b.get (x + i) (y + j)
  · refine ⟨rfl, rfl, fun x' y' h => ?_, fun _ _ _ => rfl⟩
    rw [h.1, h.2, hpixel, Bool.or_false]
    rfl
  · simpa [hpixel] using hset

@[simp] theorem width_window (b : Bitmap) (x y width height : Nat) :
    (b.window x y width height).width = width := (b.painted_window x y width height).width

@[simp] theorem height_window (b : Bitmap) (x y width height : Nat) :
    (b.window x y width height).height = height := (b.painted_window x y width height).height

/-- The pixels of a window are those of the bitmap. -/
theorem get_window (b : Bitmap) (x y width height x' y' : Nat) :
    (b.window x y width height).get x' y' =
      (decide (x' < width) && decide (y' < height) && b.get (x + x') (y + y')) := by
  have hpaint := b.painted_window x y width height
  by_cases hin : (x' < width ∧ y' < height) ∧ x + x' < b.width ∧ y + y' < b.height
  · rw [hpaint.inside x' y' (by omega), get_blank]
    simp [hin]
  · rw [hpaint.outside x' y' (by omega), get_blank]
    by_cases hsize : x' < width ∧ y' < height
    · rw [get_eq_false (b := b) (by omega), Bool.and_false]
    · rcases Decidable.not_and_iff_not_or_not.mp hsize with h | h <;> simp [h]

/-! ## Equal rows -/

theorem bitAt_row {b : Bitmap} {x y : Nat} (hx : x < 8 * b.stride) (hy : y < b.height) :
    bitAt (b.row y) x = b.get x y := by
  have hend : b.stride * (y + 1) ≤ b.data.size := by
    rw [b.size_data]
    exact Nat.mul_le_mul_left _ hy
  have hlen : b.stride * (y + 1) - b.stride * y = b.stride := by
    rw [Nat.mul_succ, Nat.add_sub_cancel_left]
  unfold row
  rw [bitAt_extract hend (by rw [hlen]; exact hx), ← bitAt_data hx hy]
  rfl

/-- Rows with the same bytes have the same pixels. -/
theorem get_eq_of_sameRows {b : Bitmap} {y y' : Nat} (hy : y < b.height) (hy' : y' < b.height)
    (h : b.sameRows y y' = true) (x : Nat) : b.get x y = b.get x y' := by
  by_cases hx : x < 8 * b.stride
  · rw [← bitAt_row hx hy, ← bitAt_row hx hy', eq_of_beq h]
  · have hwide : b.width ≤ x := Nat.le_trans (Packed.le_stride b.width) (Nat.not_lt.mp hx)
    rw [get_eq_false (.inl hwide), get_eq_false (.inl hwide)]

/-- A row whose bytes are zero is white. -/
theorem get_eq_false_of_row {b : Bitmap} {y : Nat} (h : (b.row y).all (· == 0) = true) (x : Nat) :
    b.get x y = false := by
  by_cases hin : x < b.width ∧ y < b.height
  swap
  · exact get_eq_false (by omega)
  have hx : x < 8 * b.stride := Nat.lt_of_lt_of_le hin.1 (Packed.le_stride b.width)
  have hzero : (b.row y).getD (x / 8) 0 = 0 := by
    rw [Array.getD_eq_getD_getElem?]
    cases hbyte : (b.row y)[x / 8]? with
    | none => rfl
    | some byte =>
      obtain ⟨hlt, rfl⟩ := Array.getElem?_eq_some_iff.mp hbyte
      exact eq_of_beq (Array.all_eq_true.mp h _ hlt)
  rw [← bitAt_row hx hin.2, bitAt, hzero, ofByte_zero]

end Bitmap
end Bilevel

import Bilevel.Bits.Basic

/-!
# Packed rows of pixels

The pixels of an image are stored row by row, eight to a byte, and every row starts on a byte
boundary. The bits between the end of a row and the end of its last byte are its padding. This
module has the operations on whole bytes of such rows; `bitIndex` says where a pixel is.
-/

namespace Bilevel.Packed

open Bits

/-- The number of bytes in a row of `width` pixels. -/
def stride (width : Nat) : Nat := (width + 7) / 8

/-- The number of bytes in `height` rows of `width` pixels. -/
def size (width height : Nat) : Nat := stride width * height

/-- The bit that holds the pixel in column `x` of row `y`. -/
def bitIndex (width x y : Nat) : Nat := 8 * (stride width * y) + x

/-- The byte whose first `count` bits are set. -/
def leading (count : Nat) : UInt8 := ~~~(255 >>> UInt8.ofNat count)

/-- Clear the padding of every row. -/
def clearPadding (width : Nat) (data : Bytes) : Bytes :=
  if width % 8 = 0 then data
  else data.mapIdx fun i byte =>
    if (i + 1) % stride width = 0 then byte &&& leading (width % 8) else byte

/-- Copy `count` bytes from position `source` to position `target`. -/
def copyBytes (data : Bytes) (source target count : Nat) : Bytes :=
  count.fold (fun k _ data => data.setIfInBounds (target + k) (data.getD (source + k) 0)) data

/-- Set in `count` bytes of `data`, from position `target` on, the bits that are set in the bytes of
`other` from position `source` on. -/
def orBytes (data : Bytes) (target : Nat) (other : Bytes) (source count : Nat) : Bytes :=
  count.fold (fun k _ data => data.modify (target + k) (· ||| other.getD (source + k) 0)) data

/-- Join `count` bytes of each of `rows` rows: from byte `offset` of row `top` of `data` on, with
the first bytes from row `top'` of `other` on. -/
def orRows (data : Bytes) (stride offset top : Nat) (other : Bytes) (stride' top' : Nat)
    (rows count : Nat) : Bytes :=
  rows.fold (fun j _ data =>
    orBytes data (stride * (top + j) + offset) other (stride' * (top' + j)) count) data

/-! ## Indices -/

theorem le_stride (width : Nat) : width ≤ 8 * stride width := by
  unfold stride
  omega

theorem stride_lt (width : Nat) : 8 * stride width < width + 8 := by
  unfold stride
  omega

theorem bitIndex_lt {width height x y : Nat} (hx : x < 8 * stride width) (hy : y < height) :
    bitIndex width x y < 8 * size width height := by
  have h : stride width * (y + 1) ≤ stride width * height := Nat.mul_le_mul_left _ hy
  unfold bitIndex size
  rw [Nat.mul_add] at h
  omega

/-- A bit is one of the eight in the byte of its row and column. -/
theorem bitIndex_eq (width x y : Nat) :
    bitIndex width x y = 8 * (stride width * y + x / 8) + x % 8 := by
  unfold bitIndex
  omega

theorem bitAt_bitIndex (data : Bytes) (width x y : Nat) :
    bitAt data (bitIndex width x y) = ofByte (data.getD (stride width * y + x / 8) 0) (x % 8) := by
  have hlt : x % 8 < 8 := Nat.mod_lt x (by decide)
  rw [bitAt, bitIndex_eq, Nat.mul_add_div (by decide), Nat.mul_add_mod, Nat.mod_eq_of_lt hlt,
    Nat.div_eq_of_lt hlt, Nat.add_zero]

theorem bitIndex_inj {width x y x' y' : Nat} (hx : x < 8 * stride width)
    (hx' : x' < 8 * stride width) (h : bitIndex width x y = bitIndex width x' y') :
    x = x' ∧ y = y' := by
  unfold bitIndex at h
  rw [← Nat.mul_assoc, ← Nat.mul_assoc] at h
  have hs : 0 < 8 * stride width := by omega
  have hy : (8 * stride width * y + x) / (8 * stride width) = y := by
    rw [Nat.mul_add_div hs, Nat.div_eq_of_lt hx, Nat.add_zero]
  have hy' : (8 * stride width * y' + x') / (8 * stride width) = y' := by
    rw [Nat.mul_add_div hs, Nat.div_eq_of_lt hx', Nat.add_zero]
  have he : y = y' := by rw [← hy, ← hy', h]
  subst he
  exact ⟨by omega, rfl⟩

/-- Every bit of packed rows belongs to a column and a row. -/
theorem exists_bitIndex {width height i : Nat} (h : i < 8 * size width height) :
    ∃ x y, x < 8 * stride width ∧ y < height ∧ i = bitIndex width x y := by
  unfold size at h
  have hs : 0 < 8 * stride width := by
    rcases Nat.eq_zero_or_pos (stride width) with hz | hp
    · simp [hz] at h
    · omega
  refine ⟨i % (8 * stride width), i / (8 * stride width), Nat.mod_lt _ hs, ?_, ?_⟩
  · rw [Nat.div_lt_iff_lt_mul hs, Nat.mul_comm height, Nat.mul_assoc]
    exact h
  · unfold bitIndex
    rw [← Nat.mul_assoc]
    exact (Nat.div_add_mod _ _).symm

/-! ## Clearing the padding -/

theorem ofByte_leading {count k : Nat} (hc : count < 8) (hk : k < 8) :
    ofByte (leading count) k = decide (k < count) := by
  have h : ∀ c k : Fin 8, ofByte (leading c.val) k.val = decide (k.val < c.val) := by decide
  exact h ⟨count, hc⟩ ⟨k, hk⟩

@[simp] theorem size_clearPadding (width : Nat) (data : Bytes) :
    (clearPadding width data).size = data.size := by
  unfold clearPadding
  split <;> simp

theorem bitAt_clearPadding {width height : Nat} {data : Bytes} (hs : data.size = size width height)
    {x y : Nat} (hx : x < 8 * stride width) (hy : y < height) :
    bitAt (clearPadding width data) (bitIndex width x y) =
      (decide (x < width) && bitAt data (bitIndex width x y)) := by
  have hlt := bitIndex_lt hx hy
  have hst := le_stride width
  have hst' := stride_lt width
  unfold clearPadding
  split
  · have : x < width := by omega
    simp [this]
  · next hw =>
    have hj := bitIndex_eq width x y
    have hjlt : stride width * y + x / 8 < data.size := by omega
    have hk : x % 8 < 8 := by omega
    rw [hj, bitAt_eq (by simpa using hjlt) hk, bitAt_eq hjlt hk, Array.getElem_mapIdx]
    have hmod : (stride width * y + x / 8 + 1) % stride width = (x / 8 + 1) % stride width := by
      rw [Nat.add_assoc, Nat.mul_add_mod]
    rw [hmod]
    by_cases hlast : x / 8 + 1 = stride width
    · rw [hlast, Nat.mod_self, if_pos rfl, ofByte_and, ofByte_leading (by omega) hk, Bool.and_comm]
      congr 1
      apply decide_eq_decide.mpr
      omega
    · rw [if_neg (by rw [Nat.mod_eq_of_lt (by omega)]; omega)]
      have : x < width := by omega
      simp [this]

/-! ## Copying and joining bytes -/

@[simp] theorem size_copyBytes (data : Bytes) (source target count : Nat) :
    (copyBytes data source target count).size = data.size := by
  unfold copyBytes
  induction count with
  | zero => simp
  | succ n ih => simpa using ih

/-- Copying to a place that doesn't meet the source changes just the bytes there. -/
theorem getD_copyBytes (data : Bytes) {source target count : Nat}
    (hd : source + count ≤ target ∨ target + count ≤ source) (ht : target + count ≤ data.size)
    (i : Nat) :
    (copyBytes data source target count).getD i 0 =
      if target ≤ i ∧ i < target + count then data.getD (source + (i - target)) 0
      else data.getD i 0 := by
  induction count generalizing i with
  | zero =>
    rw [if_neg (by omega)]
    simp [copyBytes]
  | succ n ih =>
    have ih' := fun i => ih (by omega) (by omega) i
    have hstep : copyBytes data source target (n + 1) =
        (copyBytes data source target n).setIfInBounds (target + n)
          ((copyBytes data source target n).getD (source + n) 0) := by
      simp [copyBytes]
    have hsrc : (copyBytes data source target n).getD (source + n) 0 =
        data.getD (source + n) 0 := by
      rw [ih', if_neg (by omega)]
    rw [hstep, hsrc]
    by_cases hi : i = target + n
    · subst hi
      rw [if_pos (by omega)]
      have h : target + n < data.size := by omega
      simp [Array.getD, h]
    · have hset : ((copyBytes data source target n).setIfInBounds (target + n)
          (data.getD (source + n) 0)).getD i 0 = (copyBytes data source target n).getD i 0 := by
        simp only [Array.getD_eq_getD_getElem?, Array.getElem?_setIfInBounds]
        rw [if_neg (by omega)]
      rw [hset, ih']
      by_cases h : target ≤ i ∧ i < target + n
      · rw [if_pos h, if_pos (by omega)]
      · rw [if_neg h, if_neg (by omega)]

@[simp] theorem size_orBytes (data : Bytes) (target : Nat) (other : Bytes) (source count : Nat) :
    (orBytes data target other source count).size = data.size := by
  unfold orBytes
  induction count with
  | zero => simp
  | succ n ih => simpa using ih

theorem getD_orBytes (data : Bytes) {target : Nat} (other : Bytes) {source count : Nat}
    (ht : target + count ≤ data.size) (i : Nat) :
    (orBytes data target other source count).getD i 0 =
      if target ≤ i ∧ i < target + count then
        data.getD i 0 ||| other.getD (source + (i - target)) 0
      else data.getD i 0 := by
  induction count generalizing i with
  | zero =>
    rw [if_neg (by omega)]
    simp [orBytes]
  | succ n ih =>
    have ih' := fun i => ih (by omega) i
    have hstep : orBytes data target other source (n + 1) =
        (orBytes data target other source n).modify (target + n)
          (· ||| other.getD (source + n) 0) := by
      simp [orBytes]
    rw [hstep]
    by_cases hi : i = target + n
    · subst hi
      have hlt : target + n < (orBytes data target other source n).size := by simp; omega
      have hprev := ih' (target + n)
      rw [if_neg (by omega)] at hprev
      have : ((orBytes data target other source n).modify (target + n)
          (· ||| other.getD (source + n) 0)).getD (target + n) 0 =
          (orBytes data target other source n).getD (target + n) 0 |||
            other.getD (source + n) 0 := by
        simp [Array.getElem?_modify, Array.getElem?_eq_getElem hlt]
      rw [this, hprev, if_pos (by omega), Nat.add_sub_cancel_left]
    · have : ((orBytes data target other source n).modify (target + n)
          (· ||| other.getD (source + n) 0)).getD i 0 =
          (orBytes data target other source n).getD i 0 := by
        simp only [Array.getD_eq_getD_getElem?, Array.getElem?_modify]
        rw [if_neg (by omega)]
      rw [this, ih']
      by_cases h : target ≤ i ∧ i < target + n
      · rw [if_pos h, if_pos (by omega)]
      · rw [if_neg h, if_neg (by omega)]

@[simp] theorem size_orRows (data : Bytes) (stride offset top : Nat) (other : Bytes)
    (stride' top' rows count : Nat) :
    (orRows data stride offset top other stride' top' rows count).size = data.size := by
  unfold orRows
  induction rows with
  | zero => simp
  | succ n ih => simpa using ih

end Bilevel.Packed

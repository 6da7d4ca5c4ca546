import Bilevel.Proofs.Bitmap.Pixels

/-!
# Bitmaps as bytes

A bitmap carries the proof that its bytes are packed rows with clear padding. Here are bytes without
any such proof, with the operations that bitmaps have, as they work on bytes: a pixel is set by a
mask, rows are copied, new bytes are appended, whole bytes are joined, and the last byte of every
row is masked where padding may have been set. Whatever is obtained by these operations has clear
padding nevertheless, so it is a bitmap, and the operations on bitmaps are those on their bytes.

## Main definitions

* `Rows` — bytes with a size and a stride, and the operations on them.
* `Rows.WellFormed` — the bytes are packed rows with clear padding.
* `Rows.Obtained` — what the operations lead to.
* `Bitmap.Follows` — a bitmap has given bytes, before and behind every operation.

## Main results

* `Rows.obtained_iff` — the bytes that can be obtained are the well-formed ones.
* `Bitmap.follows_rows` — bitmaps follow their bytes.
-/

namespace Bilevel

open Bits

/-- Bytes that may be the packed rows of a bitmap. -/
structure Rows where
  width : Nat
  height : Nat
  /-- The number of bytes in a row. -/
  stride : Nat
  data : Bytes
  deriving DecidableEq, Repr

namespace Rows

/-- The bit that holds the pixel in column `x` of row `y`. -/
def bitIndex (rows : Rows) (x y : Nat) : Nat := 8 * (rows.stride * y) + x

/-- The rows start on byte boundaries, there are as many bytes as they need, and the bits between
the end of a row and the end of its last byte are zero. -/
structure WellFormed (rows : Rows) : Prop where
  stride_eq : rows.stride = (rows.width + 7) / 8
  size_data : rows.data.size = rows.stride * rows.height
  padding_clear : ∀ x y, rows.width ≤ x → x < 8 * rows.stride → y < rows.height →
    bitAt rows.data (rows.bitIndex x y) = false

def get (rows : Rows) (x y : Nat) : Bool :=
  decide (x < rows.width) && decide (y < rows.height) && bitAt rows.data (rows.bitIndex x y)

def row (rows : Rows) (y : Nat) : Bytes :=
  rows.data.extract (rows.stride * y) (rows.stride * y + rows.stride)

/-! ## Operations -/

/-- Clear the bits behind the width in the last byte of every row. -/
def clearPadding (rows : Rows) : Rows :=
  if rows.width % 8 = 0 ∨ rows.stride = 0 then rows
  else { rows with
    data := rows.data.mapIdx fun i byte =>
      if (i + 1) % rows.stride = 0 then byte &&& Packed.leading (rows.width % 8) else byte }

def blank (width height : Nat) : Rows where
  width := width
  height := height
  stride := (width + 7) / 8
  data := Array.replicate ((width + 7) / 8 * height) 0

def create (maxPixels width height : Nat) : Except DecodeError Rows :=
  if width * height > maxPixels then .error (.unsupported .imageTooLarge)
  else .ok (blank width height)

def ofPacked (width height : Nat) (data : Bytes) : Option Rows :=
  if data.size = (width + 7) / 8 * height then
    some (clearPadding ⟨width, height, (width + 7) / 8, data⟩)
  else none

def set (rows : Rows) (x y : Nat) (black : Bool) : Rows :=
  if x < rows.width ∧ y < rows.height then
    { rows with data := setBit rows.data (rows.bitIndex x y) black }
  else rows

def copyRow (rows : Rows) (source target : Nat) : Rows :=
  { rows with
    data :=
      Packed.copyBytes rows.data (rows.stride * source) (rows.stride * target) rows.stride }

def fill (rows : Rows) (black : Bool) : Rows :=
  clearPadding { rows with data := rows.data.map fun _ => Bitmap.eight black }

/-- The bytes are cut off or continued up to the new height. -/
def extendHeight (rows : Rows) (height : Nat) (black : Bool) : Rows :=
  if height ≤ rows.height then rows
  else
    let count := rows.stride * height
    clearPadding { rows with
      height
      data := rows.data.extract 0 count ++
        Array.replicate (count - rows.data.size) (Bitmap.eight black) }

def window (rows : Rows) (x y width height : Nat) : Rows :=
  let columns := min (rows.width - x) width
  let count := min (rows.height - y) height
  count.fold (fun row _ out =>
    columns.fold (fun column _ out =>
      if rows.get (x + column) (y + row) then out.set column row true else out) out)
    (blank width height)

def crop (rows : Rows) (maxPixels x y width height : Nat) : Except DecodeError Rows :=
  if width * height > maxPixels then .error (.unsupported .imageTooLarge)
  else .ok (rows.window x y width height)

def combinePixels (rows other : Rows) (x y : Int) (op : CombinationOperator)
    (left right top bottom : Nat) : Rows :=
  (bottom - top).fold (fun j _ rows =>
    (right - left).fold (fun i _ rows =>
      let column := left + i
      let row := top + j
      let above := other.get (column - x).toNat (row - y).toNat
      rows.set column row (op.apply (rows.get column row) above)) rows) rows

/-- Join whole bytes, those of the padding of `other` and those behind the width included. -/
def orRows (rows other : Rows) (offset : Nat) (y : Int) (top bottom : Nat) : Rows :=
  let count := min other.stride (rows.stride - offset)
  clearPadding { rows with
    data := Packed.orRows rows.data rows.stride offset top other.data other.stride
      (top - y).toNat (bottom - top) count }

def combine (rows other : Rows) (x y : Int) (op : CombinationOperator) : Rows :=
  let left := max x 0
  let top := max y 0
  let right := min (x + other.width) rows.width
  let bottom := min (y + other.height) rows.height
  if right ≤ left ∨ bottom ≤ top then rows
  else if op = .or ∧ 0 ≤ x ∧ x % 8 = 0 then
    rows.orRows other (x / 8).toNat y top.toNat bottom.toNat
  else rows.combinePixels other x y op left.toNat right.toNat top.toNat bottom.toNat

/-- What the operations lead to. -/
inductive Obtained : Rows → Prop
  | blank (width height : Nat) : Obtained (blank width height)
  | create {maxPixels width height : Nat} {rows : Rows}
    (h : create maxPixels width height = .ok rows) : Obtained rows
  | ofPacked {width height : Nat} {data : Bytes} {rows : Rows}
    (h : ofPacked width height data = some rows) : Obtained rows
  | set {rows : Rows} (h : Obtained rows) (x y : Nat) (black : Bool) :
    Obtained (rows.set x y black)
  | copyRow {rows : Rows} (h : Obtained rows) {source target : Nat}
    (hsource : source < rows.height) (htarget : target < rows.height) :
    Obtained (rows.copyRow source target)
  | fill {rows : Rows} (h : Obtained rows) (black : Bool) : Obtained (rows.fill black)
  | extendHeight {rows : Rows} (h : Obtained rows) (height : Nat) (black : Bool) :
    Obtained (rows.extendHeight height black)
  | crop {rows part : Rows} (h : Obtained rows) {maxPixels x y width height : Nat}
    (hcrop : rows.crop maxPixels x y width height = .ok part) : Obtained part
  | combine {rows other : Rows} (h : Obtained rows) (h' : Obtained other) (x y : Int)
    (op : CombinationOperator) : Obtained (rows.combine other x y op)

end Rows

/-! ## Bytes of bitmaps -/

namespace Bitmap

def rows (b : Bitmap) : Rows := ⟨b.width, b.height, b.stride, b.data⟩

theorem wellFormed_rows (b : Bitmap) : b.rows.WellFormed :=
  ⟨rfl, b.size_data, b.padding_clear⟩

@[simp] theorem width_rows (b : Bitmap) : b.rows.width = b.width := rfl

@[simp] theorem height_rows (b : Bitmap) : b.rows.height = b.height := rfl

@[simp] theorem get_rows (b : Bitmap) (x y : Nat) : b.rows.get x y = b.get x y := rfl

end Bitmap

theorem Rows.WellFormed.exists_bitmap {rows : Rows} (h : rows.WellFormed) :
    ∃ b : Bitmap, b.rows = rows := by
  obtain ⟨width, height, stride, data⟩ := rows
  obtain ⟨hstride, hsize, hpadding⟩ := h
  obtain rfl : stride = (width + 7) / 8 := hstride
  exact ⟨⟨width, height, data, hsize, hpadding⟩, rfl⟩

namespace Bitmap

/-- Masking the last bytes is what makes bytes a bitmap. -/
theorem rows_ofRows {width height : Nat} {data : Bytes} (h : data.size = Packed.size width height) :
    (ofRows width height data h).rows =
      Rows.clearPadding ⟨width, height, (width + 7) / 8, data⟩ := by
  unfold rows ofRows stride Rows.clearPadding Packed.clearPadding
  by_cases hw : width % 8 = 0
  · simp only [hw, true_or, if_true]
    rfl
  · have hs : ¬(width + 7) / 8 = 0 := by omega
    simp only [hw, hs, or_self, if_false]
    rfl

theorem rows_blank (width height : Nat) : (blank width height).rows = Rows.blank width height := by
  have hzero : (blank width height).data =
      Array.replicate ((width + 7) / 8 * height) 0 := by
    refine bytes_ext ?_ fun i hi => ?_
    · rw [(blank width height).size_data, Array.size_replicate]
      rfl
    · rw [(blank width height).size_data] at hi
      obtain ⟨x, y, hx, hy, rfl⟩ := Packed.exists_bitIndex hi
      rw [bitAt_data hx hy, get_blank]
      exact (bitAt_replicate _ false (Packed.bitIndex_lt hx hy)).symm
  unfold rows Rows.blank
  rw [hzero]
  rfl

theorem rows_create (maxPixels width height : Nat) :
    (create maxPixels width height).map rows = Rows.create maxPixels width height := by
  unfold create Rows.create
  split
  · rfl
  · exact congrArg Except.ok (rows_blank width height)

theorem rows_ofPacked (width height : Nat) (data : Bytes) :
    (ofPacked width height data).map rows = Rows.ofPacked width height data := by
  by_cases h : data.size = Packed.size width height
  · rw [ofPacked, dif_pos h]
    exact (congrArg some (rows_ofRows h)).trans (if_pos h).symm
  · rw [ofPacked, dif_neg h]
    exact (if_neg h).symm

theorem rows_set (b : Bitmap) (x y : Nat) (black : Bool) :
    (b.set x y black).rows = b.rows.set x y black := by
  by_cases h : x < b.width ∧ y < b.height
  · rw [set, dif_pos h]
    exact (if_pos h).symm
  · rw [set, dif_neg h]
    exact (if_neg h).symm

theorem copyBytes_self (data : Bytes) (start count : Nat) :
    Packed.copyBytes data start start count = data := by
  unfold Packed.copyBytes
  induction count with
  | zero => rfl
  | succ count ih =>
    rw [Nat.fold_succ, ih]
    refine Array.ext_getElem? fun i => ?_
    rw [Array.getElem?_setIfInBounds]
    split
    · next h =>
      subst h
      split
      · next hlt => simp [hlt]
      · next hge => simp [hge]
    · rfl

theorem rows_copyRow (b : Bitmap) {source target : Nat} (hsource : source < b.height)
    (htarget : target < b.height) :
    (b.copyRow source target).rows = b.rows.copyRow source target := by
  by_cases hne : source = target
  · subst hne
    rw [copyRow, dif_neg (by simp), Rows.copyRow, copyBytes_self]
  · rw [copyRow, dif_pos ⟨hsource, htarget, hne⟩]
    rfl

theorem rows_fill (b : Bitmap) (black : Bool) : (b.fill black).rows = b.rows.fill black := by
  unfold fill filled Rows.fill
  rw [rows_ofRows]
  congr 2
  have hsize := b.size_data
  refine Array.ext (by simp [rows, hsize]) fun i _ _ => ?_
  simp

theorem rows_extendHeight (b : Bitmap) (height : Nat) (black : Bool) :
    (b.extendHeight height black).rows = b.rows.extendHeight height black := by
  unfold extendHeight Rows.extendHeight
  rw [height_rows]
  by_cases h : b.height < height
  · rw [dif_pos h, if_neg (Nat.not_le.mpr h), rows_ofRows]
    have hle : b.data.size ≤ b.stride * height := by
      rw [b.size_data]
      exact Nat.mul_le_mul_left _ (Nat.le_of_lt h)
    have hdata : b.data.extract 0 (b.stride * height) = b.data := by
      rw [Array.extract_eq_self_iff]
      omega
    unfold rows
    dsimp only
    rw [hdata]
    rfl
  · rw [dif_neg h, if_pos (Nat.not_lt.mp h)]

/-- A loop over bitmaps is one over their bytes. -/
theorem rows_fold {n : Nat} {f : (i : Nat) → i < n → Bitmap → Bitmap}
    {g : (i : Nat) → i < n → Rows → Rows} (h : ∀ i hi b, (f i hi b).rows = g i hi b.rows)
    (b : Bitmap) : (n.fold f b).rows = n.fold g b.rows := by
  induction n with
  | zero => rfl
  | succ n ih =>
    rw [Nat.fold_succ, Nat.fold_succ, h, ih fun i hi => h i (Nat.lt_succ_of_lt hi)]

theorem rows_window (b : Bitmap) (x y width height : Nat) :
    (b.window x y width height).rows = b.rows.window x y width height := by
  unfold window Rows.window
  rw [← rows_blank]
  refine rows_fold (fun row _ out => rows_fold (fun column _ out => ?_) out) _
  rw [get_rows]
  split
  · exact rows_set ..
  · rfl

theorem rows_crop (b : Bitmap) (maxPixels x y width height : Nat) :
    (b.crop maxPixels x y width height).map rows = b.rows.crop maxPixels x y width height := by
  unfold crop Rows.crop
  split
  · rfl
  · exact congrArg Except.ok (rows_window ..)

theorem rows_combinePixels (b other : Bitmap) (x y : Int) (op : CombinationOperator)
    (left right top bottom : Nat) :
    (b.combinePixels other x y op left right top bottom).rows =
      b.rows.combinePixels other.rows x y op left right top bottom :=
  rows_fold (fun _ _ b => rows_fold (fun _ _ b => rows_set b ..) b) b

theorem rows_orRows (b other : Bitmap) (offset : Nat) (y : Int) (top bottom : Nat) :
    (b.orRows other offset y top bottom).rows = b.rows.orRows other.rows offset y top bottom :=
  rows_ofRows (by simpa using b.size_data)

theorem rows_combine (b other : Bitmap) (x y : Int) (op : CombinationOperator) :
    (b.combine other x y op).rows = b.rows.combine other.rows x y op := by
  unfold combine Rows.combine
  rw [width_rows, width_rows, height_rows, height_rows]
  extract_lets left top right bottom
  split
  · rfl
  · split
    · exact rows_orRows ..
    · exact rows_combinePixels ..

/-- The bitmap has the bytes `rows`, and whatever operation changes the bitmap or makes another one
of it changes the bytes in the same way. -/
structure Follows (b : Bitmap) (rows : Rows) : Prop where
  rows_eq : b.rows = rows
  set (x y : Nat) (black : Bool) : (b.set x y black).rows = rows.set x y black
  copyRow {source target : Nat} (hsource : source < rows.height) (htarget : target < rows.height) :
    (b.copyRow source target).rows = rows.copyRow source target
  fill (black : Bool) : (b.fill black).rows = rows.fill black
  extendHeight (height : Nat) (black : Bool) :
    (b.extendHeight height black).rows = rows.extendHeight height black
  crop (maxPixels x y width height : Nat) :
    (b.crop maxPixels x y width height).map Bitmap.rows = rows.crop maxPixels x y width height
  combine (other : Bitmap) (x y : Int) (op : CombinationOperator) :
    (b.combine other x y op).rows = rows.combine other.rows x y op

theorem follows_rows (b : Bitmap) : b.Follows b.rows where
  rows_eq := rfl
  set := b.rows_set
  copyRow := b.rows_copyRow
  fill := b.rows_fill
  extendHeight := b.rows_extendHeight
  crop := b.rows_crop
  combine := b.rows_combine

end Bitmap

/-! ## What can be obtained -/

namespace Rows

theorem exists_of_map_eq_ok {x : Except DecodeError Bitmap} {rows : Rows}
    (h : x.map Bitmap.rows = .ok rows) : ∃ b : Bitmap, b.rows = rows := by
  cases x with
  | error e => cases h
  | ok b => exact ⟨b, Except.ok.inj h⟩

/-- Whatever is obtained is a bitmap. -/
theorem Obtained.exists_bitmap {rows : Rows} (h : rows.Obtained) : ∃ b : Bitmap, b.rows = rows := by
  induction h with
  | blank width height => exact ⟨_, Bitmap.rows_blank width height⟩
  | create h =>
    rw [← Bitmap.rows_create] at h
    exact exists_of_map_eq_ok h
  | ofPacked h =>
    rw [← Bitmap.rows_ofPacked] at h
    obtain ⟨b, -, rfl⟩ := Option.map_eq_some_iff.mp h
    exact ⟨b, rfl⟩
  | set _ x y black ih =>
    obtain ⟨b, rfl⟩ := ih
    exact ⟨_, b.rows_set x y black⟩
  | copyRow _ hsource htarget ih =>
    obtain ⟨b, rfl⟩ := ih
    exact ⟨_, b.rows_copyRow hsource htarget⟩
  | fill _ black ih =>
    obtain ⟨b, rfl⟩ := ih
    exact ⟨_, b.rows_fill black⟩
  | extendHeight _ height black ih =>
    obtain ⟨b, rfl⟩ := ih
    exact ⟨_, b.rows_extendHeight height black⟩
  | crop _ hcrop ih =>
    obtain ⟨b, rfl⟩ := ih
    rw [← b.rows_crop] at hcrop
    exact exists_of_map_eq_ok hcrop
  | combine _ _ x y op ih ih' =>
    obtain ⟨b, rfl⟩ := ih
    obtain ⟨other, rfl⟩ := ih'
    exact ⟨_, b.rows_combine other x y op⟩

/-- Well-formed bytes are what is obtained from them as packed rows. -/
theorem WellFormed.ofPacked_eq {rows : Rows} (h : rows.WellFormed) :
    ofPacked rows.width rows.height rows.data = some rows := by
  obtain ⟨b, rfl⟩ := h.exists_bitmap
  rw [← Bitmap.rows_ofPacked]
  exact congrArg (Option.map Bitmap.rows) b.ofPacked_data

theorem obtained_iff {rows : Rows} : rows.Obtained ↔ rows.WellFormed := by
  constructor
  · intro h
    obtain ⟨b, rfl⟩ := h.exists_bitmap
    exact b.wellFormed_rows
  · exact fun h => .ofPacked h.ofPacked_eq

end Rows
end Bilevel

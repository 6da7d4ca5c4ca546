import Bilevel.Proofs.Bitmap.Pixels
import Bilevel.Region.Refinement

/-!
# Bitmaps in the course of decoding

The pixels of a bitmap are decoded row by row and from left to right. A causal pixel comes before
the one that it is relative to, so the pixels that are known already make up its context.

## Main definitions

* `Generic.decodeRow`, `Refinement.decodeRow` — decoding one row.

## Main results

* `Bitmap.Known.gather_eq` — the contexts of what is to be decoded next are known.
* `Bitmap.Known.set`, `Bitmap.Known.repeatRow` — one more pixel, or one more row, is known.
-/

namespace Bilevel

/-! ## Single rows -/

namespace Generic

open Mq

/-- Decode one row. Also gives whether it is left out. -/
def decodeRow (params : GenericParams) (y : Nat) (skip : Bool) (d : Decoder) (contexts : Contexts)
    (bitmap : Bitmap) : Bool × Bitmap × Contexts × Decoder :=
  let (skip, contexts, d) := decodeSkip params skip d contexts
  (skip, if skip then (if y = 0 then bitmap else bitmap.copyRow (y - 1) y, contexts, d)
    else decodePixels params.neighbours y bitmap.width 0 d contexts bitmap)

theorem decodeRows_succ (params : GenericParams) (count y : Nat) (skip : Bool) (d : Decoder)
    (contexts : Contexts) (bitmap : Bitmap) :
    decodeRows params (count + 1) y skip d contexts bitmap =
      (do
        let (skip', bitmap', contexts', d') := decodeRow params y skip d contexts bitmap
        d'.checkData
        decodeRows params count (y + 1) skip' d' contexts' bitmap') := rfl

end Generic

namespace Refinement

open Mq

/-- Decode one pixel, unless it is left out. -/
def decodePixel (params : RefinementParams) (reference : Bitmap) (skip : Bool) (x y : Nat)
    (d : Decoder) (contexts : Contexts) (bitmap : Bitmap) : Bool × Contexts × Decoder :=
  match if skip then params.typical reference x y else none with
  | some colour => (colour, contexts, d)
  | none => d.decodeAt contexts (params.context bitmap reference x y)

theorem decodePixels_succ (params : RefinementParams) (reference : Bitmap) (skip : Bool)
    (y count x : Nat) (d : Decoder) (contexts : Contexts) (bitmap : Bitmap) :
    decodePixels params reference skip y (count + 1) x d contexts bitmap =
      let (bit, contexts', d') := decodePixel params reference skip x y d contexts bitmap
      decodePixels params reference skip y count (x + 1) d' contexts'
        (if bit then bitmap.set x y true else bitmap) := rfl

/-- Decode one row. Also gives whether pixels are left out in it. -/
def decodeRow (params : RefinementParams) (reference : Bitmap) (y : Nat) (skip : Bool)
    (d : Decoder) (contexts : Contexts) (bitmap : Bitmap) : Bool × Bitmap × Contexts × Decoder :=
  let (skip, contexts, d) := decodeSkip params skip d contexts
  (skip, decodePixels params reference skip y bitmap.width 0 d contexts bitmap)

theorem decodeRows_succ (params : RefinementParams) (reference : Bitmap) (count y : Nat)
    (skip : Bool) (d : Decoder) (contexts : Contexts) (bitmap : Bitmap) :
    decodeRows params reference (count + 1) y skip d contexts bitmap =
      (do
        let (skip', bitmap', contexts', d') :=
          decodeRow params reference y skip d contexts bitmap
        d'.checkData
        decodeRows params reference count (y + 1) skip' d' contexts' bitmap') := rfl

end Refinement

/-! ## What is known -/

namespace Bitmap

/-- What is known of a bitmap when the next pixel is the one in column `x` of row `y`: the pixels
before that one; all others are white. -/
structure Known (bitmap known : Bitmap) (x y : Nat) : Prop where
  width : known.width = bitmap.width
  height : known.height = bitmap.height
  get : ∀ x' y', known.get x' y' =
    (decide (y' < y ∨ y' = y ∧ x' < x) && bitmap.get x' y')

theorem known_blank (bitmap : Bitmap) : bitmap.Known (blank bitmap.width bitmap.height) 0 0 := by
  refine ⟨rfl, rfl, fun x' y' => ?_⟩
  rw [get_blank, decide_eq_false (by omega), Bool.false_and]

namespace Known

variable {bitmap known : Bitmap} {x y : Nat}

/-- A row is known when its last pixel is. -/
theorem nextRow (h : bitmap.Known known bitmap.width y) : bitmap.Known known 0 (y + 1) := by
  refine ⟨h.width, h.height, fun x' y' => ?_⟩
  rw [h.get]
  by_cases hx : x' < bitmap.width
  · congr 1
    exact decide_eq_decide.mpr (by omega)
  · rw [get_eq_false (.inl (Nat.not_lt.mp hx)), Bool.and_false, Bool.and_false]

/-- All pixels are known. -/
theorem eq (h : bitmap.Known known 0 bitmap.height) : known = bitmap := by
  refine ext_get h.width h.height fun x' y' => ?_
  rw [h.get]
  by_cases hy : y' < bitmap.height
  · rw [decide_eq_true (.inl hy), Bool.true_and]
  · rw [get_eq_false (.inr (Nat.not_lt.mp hy)), Bool.and_false]

theorem pixel_eq (h : bitmap.Known known x y) {p : AtPixel} (hp : p.causal = true) :
    known.pixel (x + p.x) (y + p.y) = bitmap.pixel (x + p.x) (y + p.y) := by
  unfold pixel
  by_cases hsign : (0 : Int) ≤ x + p.x ∧ (0 : Int) ≤ y + p.y
  · simp only [AtPixel.causal, Bool.or_eq_true, Bool.and_eq_true, decide_eq_true_eq] at hp
    rw [h.get, decide_eq_true (p := _ ∨ _) (by omega), Bool.true_and]
  · rcases Decidable.not_and_iff_not_or_not.mp hsign with hneg | hneg
    · rw [decide_eq_false hneg, Bool.false_and, Bool.false_and, Bool.false_and]
    · rw [decide_eq_false hneg, Bool.and_false, Bool.false_and, Bool.false_and]

/-- The context of the next pixel is known. -/
theorem gather_eq (h : bitmap.Known known x y) {pixels : List AtPixel}
    (hpixels : ∀ p ∈ pixels, p.causal = true) (cx : Nat) :
    known.gather x y pixels cx = bitmap.gather x y pixels cx := by
  induction pixels generalizing cx with
  | nil => rfl
  | cons p pixels ih =>
    simp only [gather, List.foldl_cons, h.pixel_eq (hpixels p List.mem_cons_self)]
    exact ih (fun q hq => hpixels q (List.mem_cons_of_mem p hq)) _

/-- One more pixel is known. -/
theorem set (h : bitmap.Known known x y) (hx : x < bitmap.width) (hy : y < bitmap.height) :
    bitmap.Known (if bitmap.get x y then known.set x y true else known) (x + 1) y := by
  have hsplit : ∀ x' y', (y' < y ∨ y' = y ∧ x' < x + 1) ↔
      (x' = x ∧ y' = y) ∨ (y' < y ∨ y' = y ∧ x' < x) := by omega
  split
  · next hblack =>
    refine ⟨by simpa using h.width, by simpa using h.height, fun x' y' => ?_⟩
    rw [get_set, h.width, h.height, h.get]
    by_cases hhere : x' = x ∧ y' = y
    · obtain ⟨rfl, rfl⟩ := hhere
      rw [if_pos ⟨rfl, rfl, hx, hy⟩, hblack, decide_eq_true (by omega)]
      rfl
    · rw [if_neg fun h' => hhere ⟨h'.1, h'.2.1⟩]
      congr 1
      exact decide_eq_decide.mpr (by omega)
  · next hwhite =>
    refine ⟨h.width, h.height, fun x' y' => ?_⟩
    rw [h.get]
    by_cases hhere : x' = x ∧ y' = y
    · obtain ⟨rfl, rfl⟩ := hhere
      rw [Bool.eq_false_iff.mpr hwhite, Bool.and_false, Bool.and_false]
    · congr 1
      exact decide_eq_decide.mpr (by omega)

/-- A row that is the same as the one above is known. -/
theorem repeatRow (h : bitmap.Known known 0 y) (hy : y < bitmap.height)
    (hrow : ∀ x, bitmap.get x y = if y = 0 then false else bitmap.get x (y - 1)) :
    bitmap.Known (if y = 0 then known else known.copyRow (y - 1) y) 0 (y + 1) := by
  split
  · next hzero =>
    subst hzero
    refine ⟨h.width, h.height, fun x' y' => ?_⟩
    rw [h.get, decide_eq_false (by omega), Bool.false_and]
    by_cases hy' : y' = 0
    · rw [hy', hrow x', if_pos rfl, Bool.and_false]
    · rw [decide_eq_false (by omega), Bool.false_and]
  · next hpos =>
    refine ⟨by simpa using h.width, by simpa using h.height, fun x' y' => ?_⟩
    rw [get_copyRow known (by rw [h.height]; omega) (by rw [h.height]; exact hy), h.get]
    by_cases hhere : y' = y
    · rw [if_pos hhere, hhere, hrow x', if_neg hpos, decide_eq_true (.inl (by omega)),
        decide_eq_true (.inl (Nat.lt_succ_self y))]
    · rw [if_neg hhere]
      congr 1
      exact decide_eq_decide.mpr (by omega)

end Known
end Bitmap
end Bilevel

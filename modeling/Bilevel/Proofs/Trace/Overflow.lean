import Bilevel.Proofs.Region.Size
import Bilevel.Proofs.Segment.Fields
import Bilevel.Proofs.Symbol.Reads
import Bilevel.Trace.Basic

/-!
# Coordinates in refinements

Every pixel of a refinement has a place in the reference, at a distance that the stream gives. The
places of the pixels around it are worked out from there. Distances are signed numbers of 32 bits,
and unless they are small enough for the size of the bitmap, what is worked out from them doesn't
fit such a number. Where numbers wrap around, they lead outside the reference as the exact ones do,
so the colours that are found and the contexts they form are those that exact numbers give.

## Main definitions

* `Refining.InRange` — all coordinates of its pixels fit signed numbers.
* `Refining.Near` — the distances are small enough.
* `Refining.decodeExact` — decode a refinement with exact numbers.

## Main results

* `Refining.Accepted.inRange_iff` — the coordinates fit just when the distances are small enough.
* `Refining.decodeWatched_fst`, `Refining.overflows_iff` — a refinement that is watched is decoded
  as usual, and at its end it is known whether all coordinates fit.
* `Refining.Accepted.decodeExact_eq` — exact numbers decode the same pixels.
-/

namespace Bilevel

/-- Whether both adaptive pixels fit their fields. -/
structure RefinementAt.Fits (pixels : RefinementAt) : Prop where
  current : pixels.current.Fits
  reference : pixels.reference.Fits

/-! ## Coordinates -/

namespace RefinementParams

/-- The numbers that are worked out for the pixel at `(x, y)` fit signed numbers of 32 bits: its
coordinates and those of pixels around it, and those of its place in the reference and of pixels
around that place. -/
structure PixelFits (params : RefinementParams) (x y : Nat) : Prop where
  pixel : AroundFits x y params.neighbours
  place : AroundFits (x - params.dx) (y - params.dy) (params.referenceNeighbours ++ square)

/-- The adaptive pixel in the reference, if the template has one. -/
def adaptive (params : RefinementParams) : AtPixel :=
  match params.template with
  | .template0 => params.atPixels.reference
  | .template1 => ⟨0, 0⟩

variable {params : RefinementParams}

theorem fits_neighbours (h : params.atPixels.current.Fits) : ∀ p ∈ params.neighbours, p.Fits := by
  have hfixed : ∀ p ∈ [(⟨-1, -1⟩ : AtPixel), ⟨0, -1⟩, ⟨1, -1⟩, ⟨-1, 0⟩], p.Fits := by decide
  unfold neighbours
  cases params.template with
  | template0 =>
    intro p hp
    rcases List.mem_cons.mp hp with rfl | hp
    · exact h
    · exact hfixed p (List.mem_cons_of_mem _ hp)
  | template1 => exact hfixed

/-- How far the pixels in the reference are away. -/
theorem bounds_around : ∀ p ∈ params.referenceNeighbours ++ square,
    (min (-1) params.adaptive.x ≤ p.x ∧ p.x ≤ max 1 params.adaptive.x) ∧
      min (-1) params.adaptive.y ≤ p.y ∧ p.y ≤ max 1 params.adaptive.y := by
  have hsquare : ∀ p ∈ square, (-1 ≤ p.x ∧ p.x ≤ 1) ∧ -1 ≤ p.y ∧ p.y ≤ 1 := by decide
  have hfixed : ∀ p ∈ params.referenceNeighbours, p = params.adaptive ∨ p ∈ square := by
    have hnear : ∀ p ∈ [(⟨0, -1⟩ : AtPixel), ⟨1, -1⟩, ⟨-1, 0⟩, ⟨0, 0⟩, ⟨1, 0⟩, ⟨-1, 1⟩, ⟨0, 1⟩,
        ⟨1, 1⟩], p ∈ square := by decide
    have hcross : ∀ p ∈ [(⟨0, -1⟩ : AtPixel), ⟨-1, 0⟩, ⟨0, 0⟩, ⟨1, 0⟩, ⟨0, 1⟩, ⟨1, 1⟩],
        p ∈ square := by decide
    unfold referenceNeighbours adaptive
    cases params.template with
    | template0 => exact fun p hp => (List.mem_cons.mp hp).imp_right (hnear p)
    | template1 => exact fun p hp => .inr (hcross p hp)
  intro p hp
  rcases List.mem_append.mp hp with hp | hp
  · rcases hfixed p hp with rfl | hp
    · omega
    · have := hsquare p hp
      omega
  · have := hsquare p hp
    omega

theorem mem_around_adaptive :
    params.adaptive = ⟨0, 0⟩ ∨ params.adaptive ∈ params.referenceNeighbours ++ square := by
  unfold adaptive referenceNeighbours
  cases params.template with
  | template0 => exact .inr (List.mem_append_left _ List.mem_cons_self)
  | template1 => exact .inl rfl

/-- Some pixel is as far away as that, in each direction. -/
theorem exists_around {f : AtPixel → Int} (hzero : f ⟨0, 0⟩ = 0) :
    (f ⟨-1, -1⟩ = -1 → ∃ p ∈ params.referenceNeighbours ++ square,
      f p = min (-1) (f params.adaptive)) ∧
    (f ⟨1, 1⟩ = 1 → ∃ p ∈ params.referenceNeighbours ++ square,
      f p = max 1 (f params.adaptive)) := by
  have hcorner : ∀ p ∈ [(⟨-1, -1⟩ : AtPixel), ⟨1, 1⟩], p ∈ params.referenceNeighbours ++ square :=
    fun p hp => List.mem_append_right _ (by revert p; decide)
  have hadaptive := params.mem_around_adaptive
  constructor
  · intro hf
    by_cases hlow : f params.adaptive < -1
    · refine ⟨params.adaptive, hadaptive.resolve_left fun h => ?_, by omega⟩
      rw [h] at hlow
      omega
    · exact ⟨⟨-1, -1⟩, hcorner _ (by simp), by omega⟩
  · intro hf
    by_cases hhigh : 1 < f params.adaptive
    · refine ⟨params.adaptive, hadaptive.resolve_left fun h => ?_, by omega⟩
      rw [h] at hhigh
      omega
    · exact ⟨⟨1, 1⟩, hcorner _ (by simp), by omega⟩

end RefinementParams

namespace Refining

/-- All coordinates that decoding works out fit signed numbers of 32 bits. -/
def InRange (r : Refining) : Prop :=
  ∀ x < r.bitmap.width, ∀ y < r.bitmap.height, r.params.PixelFits x y

/-- The place of the reference is so near that the pixels around the places of the first pixel and
of the last one have coordinates that fit. -/
structure Near (r : Refining) : Prop where
  left : -0x80000000 ≤ min (-1) r.params.adaptive.x - r.params.dx
  right : r.bitmap.width - 1 + max 1 r.params.adaptive.x - r.params.dx ≤ 0x7FFFFFFF
  top : -0x80000000 ≤ min (-1) r.params.adaptive.y - r.params.dy
  bottom : r.bitmap.height - 1 + max 1 r.params.adaptive.y - r.params.dy ≤ 0x7FFFFFFF

/-- The largest number of pixels for which bitmaps are surely addressed by signed numbers. -/
def pixelLimit : Nat := 0x40000000

/-- What decoding makes sure of: the distances fit signed numbers, the adaptive pixels fit bytes,
and neither bitmap has too many pixels. -/
structure Accepted (maxPixels : Nat) (r : Refining) : Prop where
  dx : FitsSigned r.params.dx
  dy : FitsSigned r.params.dy
  atPixels : r.params.atPixels.Fits
  within : r.bitmap.Within maxPixels
  reference : r.reference.Within maxPixels

/-- Neither bitmap has so many pixels that it can't be addressed. -/
abbrev Addressable (r : Refining) : Prop := r.Accepted pixelLimit

end Refining

theorem Bitmap.Within.mono {b : Bitmap} {maxPixels limit : Nat} (h : b.Within maxPixels)
    (hle : maxPixels ≤ limit) : b.Within limit :=
  Nat.le_trans h hle

theorem Refining.Accepted.mono {r : Refining} {maxPixels limit : Nat} (h : r.Accepted maxPixels)
    (hle : maxPixels ≤ limit) : r.Accepted limit :=
  ⟨h.dx, h.dy, h.atPixels, h.within.mono hle, h.reference.mono hle⟩

/-- The sides of a bitmap that isn't empty. -/
theorem Bitmap.Within.sides {b : Bitmap} {maxPixels : Nat} (h : b.Within maxPixels)
    (hwidth : 0 < b.width) (hheight : 0 < b.height) :
    b.width ≤ maxPixels ∧ b.height ≤ maxPixels :=
  ⟨(Nat.le_mul_of_pos_right _ hheight).trans h, (Nat.le_mul_of_pos_left _ hwidth).trans h⟩

namespace Refining.Addressable

variable {r : Refining} (h : r.Addressable)

include h

theorem adaptive_fits : r.params.adaptive.Fits := by
  unfold RefinementParams.adaptive
  cases r.params.template with
  | template0 => exact h.atPixels.reference
  | template1 => exact (by decide : (⟨0, 0⟩ : AtPixel).Fits)

/-- The coordinates in the bitmap itself always fit. -/
theorem neighbours_fit {x y : Nat} (hx : x < r.bitmap.width) (hy : y < r.bitmap.height) :
    RefinementParams.AroundFits x y r.params.neighbours := by
  obtain ⟨hwidth, hheight⟩ := h.within.sides (by omega) (by omega)
  unfold pixelLimit at hwidth hheight
  unfold RefinementParams.AroundFits FitsSigned
  refine ⟨by omega, fun p hp => ?_⟩
  obtain ⟨hpx, hpy⟩ := RefinementParams.fits_neighbours h.atPixels.current p hp
  omega

/-- All coordinates fit just when the reference is near. -/
theorem inRange_iff :
    r.InRange ↔ r.bitmap.width = 0 ∨ r.bitmap.height = 0 ∨ r.Near := by
  constructor
  · intro hrange
    by_cases hempty : r.bitmap.width = 0 ∨ r.bitmap.height = 0
    · rcases hempty with hempty | hempty
      · exact .inl hempty
      · exact .inr (.inl hempty)
    refine .inr (.inr ?_)
    have hfirst := hrange 0 (by omega) 0 (by omega)
    have hlast := hrange (r.bitmap.width - 1) (by omega) (r.bitmap.height - 1) (by omega)
    obtain ⟨left, hleft, hx⟩ := (r.params.exists_around (f := AtPixel.x) rfl).1 rfl
    obtain ⟨right, hright, hx'⟩ := (r.params.exists_around (f := AtPixel.x) rfl).2 rfl
    obtain ⟨top, htop, hy⟩ := (r.params.exists_around (f := AtPixel.y) rfl).1 rfl
    obtain ⟨bottom, hbottom, hy'⟩ := (r.params.exists_around (f := AtPixel.y) rfl).2 rfl
    have hleft := (hfirst.place.2 left hleft).1.1
    have hright := (hlast.place.2 right hright).1.2
    have htop := (hfirst.place.2 top htop).2.1
    have hbottom := (hlast.place.2 bottom hbottom).2.2
    exact ⟨by omega, by omega, by omega, by omega⟩
  · intro hnear x hx y hy
    have hpixel := h.neighbours_fit hx hy
    have hnear : r.Near := by
      rcases hnear with hempty | hempty | hnear
      · omega
      · omega
      · exact hnear
    obtain ⟨hleft, hright, htop, hbottom⟩ := hnear
    unfold RefinementParams.AroundFits at hpixel
    refine ⟨hpixel, ?_, fun p hp => ?_⟩
    · unfold FitsSigned at hpixel ⊢
      omega
    · have := RefinementParams.bounds_around p hp
      unfold FitsSigned
      omega

/-- Distances that are within the limit for pixels are always small enough, if they leave room for an
adaptive pixel. -/
theorem inRange_of_small (hdx : r.params.dx.natAbs ≤ pixelLimit - 127)
    (hdy : r.params.dy.natAbs ≤ pixelLimit - 127) : r.InRange := by
  intro x hx y hy
  refine h.inRange_iff.mpr (.inr (.inr ?_)) x hx y hy
  obtain ⟨hwidth, hheight⟩ := h.within.sides (by omega) (by omega)
  obtain ⟨hax, hay⟩ := h.adaptive_fits
  unfold pixelLimit at hdx hdy hwidth hheight
  exact ⟨by omega, by omega, by omega, by omega⟩

end Refining.Addressable

/-! ## Watching a refinement -/

namespace RefinementParams

variable {params : RefinementParams} {reference : Bitmap} {skip : Bool} {x y : Nat}

/-- Where the pixels of a context have coordinates that fit, so have all nine around the place. -/
theorem aroundFits_append_square {x y : Int} (h : AroundFits x y params.referenceNeighbours) :
    AroundFits x y (params.referenceNeighbours ++ square) := by
  have hcross : ∀ p ∈ [(⟨-1, 0⟩ : AtPixel), ⟨1, 0⟩, ⟨0, -1⟩, ⟨0, 1⟩],
      p ∈ params.referenceNeighbours := by
    unfold referenceNeighbours
    cases params.template <;> simp
  have hsquare : ∀ p ∈ square, (-1 ≤ p.x ∧ p.x ≤ 1) ∧ -1 ≤ p.y ∧ p.y ≤ 1 := by decide
  obtain ⟨hplace, hall⟩ := h
  refine ⟨hplace, fun p hp => (List.mem_append.mp hp).elim (hall p) fun hp => ?_⟩
  have hleft := (hall ⟨-1, 0⟩ (hcross _ (by simp))).1
  have hright := (hall ⟨1, 0⟩ (hcross _ (by simp))).1
  have htop := (hall ⟨0, -1⟩ (hcross _ (by simp))).2
  have hbottom := (hall ⟨0, 1⟩ (hcross _ (by simp))).2
  have := hsquare p hp
  unfold FitsSigned at *
  dsimp only at hleft hright htop hbottom
  omega

theorem contextOverflows_eq_false : params.contextOverflows x y = false ↔ params.PixelFits x y := by
  unfold contextOverflows
  rw [Bool.not_eq_false', decide_eq_true_eq]
  exact ⟨fun h => ⟨h.1, aroundFits_append_square h.2⟩, fun h =>
    ⟨h.pixel, h.place.1, fun p hp => h.place.2 p (List.mem_append_left _ hp)⟩⟩

theorem PixelFits.pixelOverflows (h : params.PixelFits x y) :
    params.pixelOverflows reference skip x y = false := by
  unfold RefinementParams.pixelOverflows
  split
  · unfold typicalOverflows
    rw [Bool.not_eq_false', decide_eq_true_eq]
    exact ⟨h.place.1, fun p hp => h.place.2 p (List.mem_append_right _ hp)⟩
  · exact contextOverflows_eq_false.mpr h

/-- In a row without pixels that can be left out, every pixel counts. -/
theorem rowOverflows_eq_false (count : Nat) :
    params.rowOverflows reference false y count x = false ↔
      ∀ x', x ≤ x' → x' < x + count → params.PixelFits x' y := by
  induction count generalizing x with
  | zero => exact ⟨fun _ _ _ _ => by omega, fun _ => rfl⟩
  | succ count ih =>
    rw [rowOverflows, Bool.or_eq_false_iff, ih]
    change params.contextOverflows x y = false ∧ _ ↔ _
    rw [contextOverflows_eq_false]
    constructor
    · rintro ⟨hfirst, hrest⟩ x' hx hx'
      rcases Nat.eq_or_lt_of_le hx with rfl | hx
      · exact hfirst
      · exact hrest x' hx (by omega)
    · exact fun h => ⟨h x le_rfl (by omega), fun x' hx hx' => h x' (by omega) (by omega)⟩

theorem rowOverflows_of_fits {count : Nat}
    (h : ∀ x', x ≤ x' → x' < x + count → params.PixelFits x' y) :
    params.rowOverflows reference skip y count x = false := by
  induction count generalizing x with
  | zero => rfl
  | succ count ih =>
    rw [rowOverflows, (h x le_rfl (by omega)).pixelOverflows, Bool.false_or]
    exact ih fun x' hx hx' => h x' (by omega) (by omega)

end RefinementParams

namespace Refinement

open Mq

variable {params : RefinementParams} {reference : Bitmap} {count y : Nat} {skip overflows : Bool}
  {decoder : Decoder} {contexts : Contexts} {bitmap : Bitmap}

theorem decodeRowsWatched_fst :
    (decodeRowsWatched params reference count y skip overflows decoder contexts bitmap).1 =
      decodeRows params reference count y skip decoder contexts bitmap := by
  induction count generalizing y skip overflows decoder contexts bitmap with
  | zero => rfl
  | succ count ih =>
    rw [decodeRowsWatched, decodeRows]
    generalize decodeSkip params skip decoder contexts = start
    obtain ⟨skip, contexts, decoder⟩ := start
    dsimp only
    cases (decodePixels params reference skip y bitmap.width 0 decoder contexts
      bitmap).2.2.checkData with
    | error e => rfl
    | ok u => exact ih

/-- If all coordinates fit, nothing is noted. -/
theorem decodeRowsWatched_snd (hrows : y + count ≤ bitmap.height)
    (hfits : ∀ x < bitmap.width, ∀ y < bitmap.height, params.PixelFits x y) :
    (decodeRowsWatched params reference count y skip overflows decoder contexts bitmap).2 =
      overflows := by
  induction count generalizing y skip overflows decoder contexts bitmap with
  | zero => rfl
  | succ count ih =>
    rw [decodeRowsWatched]
    generalize decodeSkip params skip decoder contexts = start
    obtain ⟨skip, contexts, decoder⟩ := start
    have hrow : params.rowOverflows reference skip y bitmap.width 0 = false :=
      RefinementParams.rowOverflows_of_fits fun x _ hx => hfits x (by omega) y (by omega)
    have hsame :=
      sameSize_decodePixels params reference skip y bitmap.width 0 decoder contexts bitmap
    dsimp only
    rw [hrow, Bool.or_false]
    split
    · refine ih ?_ fun x hx y hy => hfits x (hsame.width ▸ hx) y (hsame.height ▸ hy)
      rw [hsame.height]
      omega
    · rfl

/-- Where no pixels can be left out, it is noted at the end whether a coordinate doesn't fit. -/
theorem decodeRowsWatched_snd_iff (hskips : params.skipsPixels = false)
    {result : Bitmap × Contexts × Decoder}
    (hok : (decodeRowsWatched params reference count y skip overflows decoder contexts bitmap).1 =
      .ok result) :
    (decodeRowsWatched params reference count y skip overflows decoder contexts bitmap).2 = false ↔
      overflows = false ∧
        ∀ x < bitmap.width, ∀ y', y ≤ y' → y' < y + count → params.PixelFits x y' := by
  induction count generalizing y skip overflows decoder contexts bitmap with
  | zero => exact ⟨fun h => ⟨h, fun _ _ _ _ _ => by omega⟩, fun h => h.1⟩
  | succ count ih =>
    have hskip : decodeSkip params skip decoder contexts = (false, contexts, decoder) := by
      rw [decodeSkip, hskips]
      rfl
    rw [decodeRowsWatched, hskip] at hok ⊢
    have hsame :=
      sameSize_decodePixels params reference false y bitmap.width 0 decoder contexts bitmap
    dsimp only at hok ⊢
    split at hok
    · rw [ih hok, Bool.or_eq_false_iff, RefinementParams.rowOverflows_eq_false, hsame.width,
        and_assoc]
      refine and_congr_right fun _ => ⟨fun h x hx y' hy hy' => ?_, fun h => ⟨?_, ?_⟩⟩
      · rcases Nat.eq_or_lt_of_le hy with rfl | hy
        · exact h.1 x (Nat.zero_le x) (by omega)
        · exact h.2 x hx y' hy (by omega)
      · exact fun x _ hx => h x (by omega) y le_rfl (by omega)
      · exact fun x hx y' hy hy' => h x hx y' (by omega) (by omega)
    · cases hok

end Refinement

namespace Refining

variable (r : Refining) (decoder : Mq.Decoder) (contexts : Mq.Contexts)

theorem decodeWatched_fst : (r.decodeWatched decoder contexts).1 =
    Refinement.decodeBitmap r.params r.reference decoder contexts r.bitmap :=
  Refinement.decodeRowsWatched_fst

variable {r decoder contexts}

theorem InRange.not_overflows (h : r.InRange) : (r.decodeWatched decoder contexts).2 = false :=
  Refinement.decodeRowsWatched_snd (Nat.zero_add _).le h

/-- A refinement without pixels that are left out and whose rows are all decoded. -/
theorem overflows_iff (hskips : r.params.skipsPixels = false)
    {result : Bitmap × Mq.Contexts × Mq.Decoder}
    (hok : (r.decodeWatched decoder contexts).1 = .ok result) :
    (r.decodeWatched decoder contexts).2 = true ↔ ¬r.InRange := by
  have hiff := Refinement.decodeRowsWatched_snd_iff hskips hok
  rw [← Bool.not_eq_false, not_iff_not]
  refine hiff.trans ⟨fun h x hx y hy => h.2 x hx y (Nat.zero_le y) (by omega), fun h => ⟨rfl, ?_⟩⟩
  exact fun x hx y _ hy => h x hx y (by omega)

end Refining

/-! ## Exact numbers -/

namespace Bitmap

theorem pixel_eq_false {b : Bitmap} {x y : Int}
    (h : ¬(0 ≤ x ∧ x < b.width ∧ 0 ≤ y ∧ y < b.height)) : b.pixel x y = false := by
  unfold pixel
  by_cases hsign : 0 ≤ x ∧ 0 ≤ y
  · rw [get_eq_false (by omega), Bool.and_false]
  · rcases Decidable.not_and_iff_not_or_not.mp hsign with hx | hy
    · rw [decide_eq_false hx, Bool.false_and, Bool.false_and]
    · rw [decide_eq_false hy, Bool.and_false, Bool.false_and]

/-- Coordinates that don't fit lead outside a bitmap, also when they wrap around. -/
theorem pixel_wrapSigned {b : Bitmap} (hb : b.Within Refining.pixelLimit) {x y : Int}
    (hx : -0x80000000 - 128 ≤ x ∧ x < 0x80000000 + 0x40000000 + 128)
    (hy : -0x80000000 - 128 ≤ y ∧ y < 0x80000000 + 0x40000000 + 128) :
    b.pixel (wrapSigned x) (wrapSigned y) = b.pixel x y := by
  by_cases hfits : FitsSigned x ∧ FitsSigned y
  · rw [wrapSigned_of_fits hfits.1, wrapSigned_of_fits hfits.2]
  · have hsides := hb.sides
    unfold Refining.pixelLimit at hsides
    unfold FitsSigned at hfits
    rw [pixel_eq_false, pixel_eq_false]
    · omega
    · rw [wrapSigned_eq, wrapSigned_eq]
      omega

theorem gatherWrapped_eq {b : Bitmap} {x y x' y' : Int} {pixels : List AtPixel}
    (h : ∀ p ∈ pixels, b.pixel (wrapSigned (x + p.x)) (wrapSigned (y + p.y)) =
      b.pixel (x' + p.x) (y' + p.y)) (cx : Nat) :
    b.gatherWrapped x y pixels cx = b.gather x' y' pixels cx := by
  unfold gatherWrapped gather
  refine List.foldl_ext _ _ _ fun cx p hp => ?_
  rw [h p hp]

end Bitmap

namespace RefinementParams

/-- The context of the pixel at `(x, y)`, worked out with exact numbers. -/
def contextExact (params : RefinementParams) (bitmap reference : Bitmap) (x y : Nat) : Nat :=
  reference.gather (x - params.dx) (y - params.dy) params.referenceNeighbours
    (bitmap.gather x y params.neighbours 0)

/-- The colour of the nine pixels around the place of `(x, y)` in the reference, if it is one, worked
out with exact numbers. -/
def typicalExact (params : RefinementParams) (reference : Bitmap) (x y : Nat) : Option Bool :=
  let rx : Int := x - params.dx
  let ry : Int := y - params.dy
  let centre := reference.pixel rx ry
  if square.all fun p => reference.pixel (rx + p.x) (ry + p.y) == centre then some centre else none

end RefinementParams

namespace Refining

open Mq

variable (r : Refining)

/-- Decode `count` pixels of row `y`, from column `x` on, with exact numbers. -/
def decodePixelsExact (skip : Bool) (y : Nat) :
    (count x : Nat) → Decoder → Contexts → Bitmap → Bitmap × Contexts × Decoder
  | 0, _, decoder, contexts, bitmap => (bitmap, contexts, decoder)
  | count + 1, x, decoder, contexts, bitmap =>
    let (bit, contexts, decoder) :=
      match if skip then r.params.typicalExact r.reference x y else none with
      | some colour => (colour, contexts, decoder)
      | none => decoder.decodeAt contexts (r.params.contextExact bitmap r.reference x y)
    decodePixelsExact skip y count (x + 1) decoder contexts
      (if bit then bitmap.set x y true else bitmap)

/-- Decode `count` rows, from row `y` on, with exact numbers. -/
def decodeRowsExact : (count y : Nat) → (skip : Bool) → Decoder → Contexts → Bitmap →
    Except DecodeError (Bitmap × Contexts × Decoder)
  | 0, _, _, decoder, contexts, bitmap => .ok (bitmap, contexts, decoder)
  | count + 1, y, skip, decoder, contexts, bitmap => do
    let (skip, contexts, decoder) := Refinement.decodeSkip r.params skip decoder contexts
    let (bitmap, contexts, decoder) :=
      r.decodePixelsExact skip y bitmap.width 0 decoder contexts bitmap
    decoder.checkData
    decodeRowsExact count (y + 1) skip decoder contexts bitmap

/-- Decode the pixels of a refinement with exact numbers. -/
def decodeExact (decoder : Decoder) (contexts : Contexts) :
    Except DecodeError (Bitmap × Contexts × Decoder) :=
  r.decodeRowsExact r.bitmap.height 0 false decoder contexts r.bitmap

end Refining

namespace Refining.Addressable

variable {r : Refining} (h : r.Addressable) {x y : Nat}

include h

/-- Around the place of a pixel in the reference, the same colours are found. -/
theorem pixel_around (hx : x < r.bitmap.width) (hy : y < r.bitmap.height) {p : AtPixel}
    (hp : p ∈ r.params.referenceNeighbours ++ RefinementParams.square) :
    r.reference.pixel (wrapSigned (wrapSigned (x - r.params.dx) + p.x))
        (wrapSigned (wrapSigned (y - r.params.dy) + p.y)) =
      r.reference.pixel (x - r.params.dx + p.x) (y - r.params.dy + p.y) := by
  obtain ⟨hwidth, hheight⟩ := h.within.sides (by omega) (by omega)
  unfold pixelLimit at hwidth hheight
  have hdx := h.dx
  have hdy := h.dy
  have hadaptive := h.adaptive_fits
  have hbounds := RefinementParams.bounds_around p hp
  have hax := hadaptive.x
  have hay := hadaptive.y
  unfold FitsSigned at hdx hdy
  rw [wrapSigned_add, wrapSigned_add]
  exact Bitmap.pixel_wrapSigned h.reference (by omega) (by omega)

/-- Exact numbers give the same contexts. -/
theorem context_eq (bitmap : Bitmap) (hx : x < r.bitmap.width) (hy : y < r.bitmap.height) :
    r.params.context bitmap r.reference x y = r.params.contextExact bitmap r.reference x y :=
  Bitmap.gatherWrapped_eq (fun _ hp => h.pixel_around hx hy (List.mem_append_left _ hp)) _

/-- Exact numbers leave out the same pixels. -/
theorem typical_eq (hx : x < r.bitmap.width) (hy : y < r.bitmap.height) :
    r.params.typical r.reference x y = r.params.typicalExact r.reference x y := by
  have haround {p : AtPixel} (hp : p ∈ RefinementParams.square) :=
    h.pixel_around hx hy (List.mem_append_right r.params.referenceNeighbours hp)
  have hcentre : r.reference.pixel (wrapSigned (x - r.params.dx)) (wrapSigned (y - r.params.dy)) =
      r.reference.pixel (x - r.params.dx) (y - r.params.dy) := by
    have hzero := @haround ⟨0, 0⟩ (by decide)
    rwa [wrapSigned_add, wrapSigned_add, Int.add_zero, Int.add_zero] at hzero
  have hall : ∀ centre : Bool,
      (RefinementParams.square.all fun p =>
        r.reference.pixel (wrapSigned (wrapSigned (x - r.params.dx) + p.x))
          (wrapSigned (wrapSigned (y - r.params.dy) + p.y)) == centre) =
      RefinementParams.square.all fun p =>
        r.reference.pixel (x - r.params.dx + p.x) (y - r.params.dy + p.y) == centre := by
    intro centre
    rw [Bool.eq_iff_iff, List.all_eq_true, List.all_eq_true]
    exact forall₂_congr fun p hp => by rw [haround hp]
  unfold RefinementParams.typical RefinementParams.typicalExact
  dsimp only
  rw [hcentre, hall]

theorem decodePixelsExact_eq {bitmap : Bitmap} (hsize : bitmap.SameSize r.bitmap) {count : Nat}
    (hcount : x + count ≤ bitmap.width) (hy : y < bitmap.height) (skip : Bool)
    (decoder : Mq.Decoder) (contexts : Mq.Contexts) :
    r.decodePixelsExact skip y count x decoder contexts bitmap =
      Refinement.decodePixels r.params r.reference skip y count x decoder contexts bitmap := by
  induction count generalizing x decoder contexts bitmap with
  | zero => rfl
  | succ count ih =>
    have hx : x < r.bitmap.width := by
      have := hsize.width
      omega
    rw [decodePixelsExact, Refinement.decodePixels, ← h.context_eq bitmap hx (hsize.height ▸ hy),
      ← h.typical_eq hx (hsize.height ▸ hy)]
    have hnext : ∀ decoded : Bool × Mq.Contexts × Mq.Decoder,
        r.decodePixelsExact skip y count (x + 1) decoded.2.2 decoded.2.1
            (if decoded.1 then bitmap.set x y true else bitmap) =
          Refinement.decodePixels r.params r.reference skip y count (x + 1) decoded.2.2 decoded.2.1
            (if decoded.1 then bitmap.set x y true else bitmap) := by
      intro decoded
      have hset := Bitmap.sameSize_ite_set bitmap x y decoded.1 true
      refine ih (hset.trans hsize) ?_ (hset.height ▸ hy) _ _
      rw [hset.width]
      omega
    cases if skip then r.params.typical r.reference x y else none with
    | some colour => exact hnext (colour, contexts, decoder)
    | none => exact hnext (decoder.decodeAt contexts (r.params.context bitmap r.reference x y))

theorem decodeRowsExact_eq {bitmap : Bitmap} (hsize : bitmap.SameSize r.bitmap) {count : Nat}
    (hcount : y + count ≤ bitmap.height) (skip : Bool) (decoder : Mq.Decoder)
    (contexts : Mq.Contexts) :
    r.decodeRowsExact count y skip decoder contexts bitmap =
      Refinement.decodeRows r.params r.reference count y skip decoder contexts bitmap := by
  induction count generalizing y skip decoder contexts bitmap with
  | zero => rfl
  | succ count ih =>
    rw [decodeRowsExact, Refinement.decodeRows]
    generalize Refinement.decodeSkip r.params skip decoder contexts = start
    obtain ⟨skip, contexts, decoder⟩ := start
    dsimp only
    rw [h.decodePixelsExact_eq hsize (Nat.zero_add _).le (by omega)]
    have hrow := Refinement.sameSize_decodePixels r.params r.reference skip y bitmap.width 0 decoder
      contexts bitmap
    refine bind_congr fun _ => ih (hrow.trans hsize) ?_ _ _ _
    rw [hrow.height]
    omega

/-- Exact numbers decode the same pixels. -/
theorem decodeExact_eq (decoder : Mq.Decoder) (contexts : Mq.Contexts) :
    r.decodeExact decoder contexts =
      Refinement.decodeBitmap r.params r.reference decoder contexts r.bitmap :=
  h.decodeRowsExact_eq (.refl _) (Nat.zero_add _).le false decoder contexts

end Refining.Addressable
end Bilevel

import Bilevel.Proofs.Mq.Values
import Bilevel.Proofs.Region.Partial

/-!
# Coding bitmaps with the help of others

A decoder that has the same reference as an encoder and is in step with it decodes the bitmap that
the encoder encodes next. A pixel that is left out has the colour that the reference predicts.

## Main results

* `Refinement.decodeBitmap_encodeBitmap` — bitmaps survive encoding and decoding.
-/

namespace Bilevel

open Mq

theorem RefinementParams.causal_neighbours {params : RefinementParams}
    (h : params.atPixels.current.causal = true) : ∀ p ∈ params.neighbours, p.causal = true := by
  have hall : params.neighbours.all AtPixel.causal = true := by
    unfold neighbours
    split <;> simp only [List.all_cons, h] <;> rfl
  exact List.all_eq_true.mp hall

namespace Refinement

/-! ## What is encoded -/

/-- Encode one pixel, unless it is left out. -/
def encodePixel (params : RefinementParams) (reference bitmap : Bitmap) (skip : Bool) (x y : Nat)
    (e : Encoder) (contexts : Contexts) : Contexts × Encoder :=
  if skip && (params.typical reference x y).isSome then (contexts, e)
  else e.encodeAt contexts (params.context bitmap reference x y) (bitmap.get x y)

theorem encodePixels_succ (params : RefinementParams) (reference bitmap : Bitmap) (skip : Bool)
    (y count x : Nat) (e : Encoder) (contexts : Contexts) :
    encodePixels params reference bitmap skip y (count + 1) x e contexts =
      encodePixels params reference bitmap skip y count (x + 1)
        (encodePixel params reference bitmap skip x y e contexts).2
        (encodePixel params reference bitmap skip x y e contexts).1 := rfl

theorem reaches_encodePixel (params : RefinementParams) (reference bitmap : Bitmap) (skip : Bool)
    (x y : Nat) (e : Encoder) (contexts : Contexts) :
    e.Reaches (encodePixel params reference bitmap skip x y e contexts).2 := by
  unfold encodePixel
  split
  · exact .refl e
  · exact Encoder.Reaches.encodeAt e contexts _ _

theorem reaches_encodePixels (params : RefinementParams) (reference bitmap : Bitmap) (skip : Bool)
    (y count x : Nat) (e : Encoder) (contexts : Contexts) :
    e.Reaches (encodePixels params reference bitmap skip y count x e contexts).2 := by
  induction count generalizing x e contexts with
  | zero => exact .refl e
  | succ count ih => exact (reaches_encodePixel ..).trans (ih ..)

theorem reaches_encodeSkip (params : RefinementParams) (reference bitmap : Bitmap) (y : Nat)
    (skip : Bool) (e : Encoder) (contexts : Contexts) :
    e.Reaches (encodeSkip params reference bitmap y skip e contexts).2.2 := by
  unfold encodeSkip
  split
  · exact Encoder.Reaches.encodeAt e contexts _ _
  · exact .refl e

/-- Encode one row. Also gives whether pixels are left out in it. -/
def encodeRow (params : RefinementParams) (reference bitmap : Bitmap) (y : Nat) (skip : Bool)
    (e : Encoder) (contexts : Contexts) : Bool × Contexts × Encoder :=
  let (skip, contexts, e) := encodeSkip params reference bitmap y skip e contexts
  (skip, encodePixels params reference bitmap skip y bitmap.width 0 e contexts)

theorem encodeRows_succ (params : RefinementParams) (reference bitmap : Bitmap) (count y : Nat)
    (skip : Bool) (e : Encoder) (contexts : Contexts) :
    encodeRows params reference bitmap (count + 1) y skip e contexts =
      let (skip', contexts', e') := encodeRow params reference bitmap y skip e contexts
      encodeRows params reference bitmap count (y + 1) skip' e' contexts' := rfl

theorem reaches_encodeRow (params : RefinementParams) (reference bitmap : Bitmap) (y : Nat)
    (skip : Bool) (e : Encoder) (contexts : Contexts) :
    (encodeSkip params reference bitmap y skip e contexts).2.2.Reaches
      (encodeRow params reference bitmap y skip e contexts).2.2 :=
  reaches_encodePixels ..

theorem reaches_encodeRows (params : RefinementParams) (reference bitmap : Bitmap) (count y : Nat)
    (skip : Bool) (e : Encoder) (contexts : Contexts) :
    e.Reaches (encodeRows params reference bitmap count y skip e contexts).2 := by
  induction count generalizing y skip e contexts with
  | zero => exact .refl e
  | succ count ih =>
    exact (reaches_encodeSkip params reference bitmap y skip e contexts).trans
      ((reaches_encodeRow ..).trans (ih ..))

theorem reaches_encodeBitmap (params : RefinementParams) (reference : Bitmap) (e : Encoder)
    (contexts : Contexts) (bitmap : Bitmap) :
    e.Reaches (encodeBitmap params reference e contexts bitmap).2 := reaches_encodeRows ..

/-! ## Round trips -/

/-- Whether row `y` of a bitmap has the colours that the reference predicts. -/
def Predicted (params : RefinementParams) (reference bitmap : Bitmap) (y : Nat) : Prop :=
  ∀ x < bitmap.width, ∀ colour ∈ params.typical reference x y, colour = bitmap.get x y

theorem predicted_of_followsReference {params : RefinementParams} {reference bitmap : Bitmap}
    {y count : Nat} (h : followsReference params reference bitmap y count = true) :
    ∀ x < count, ∀ colour ∈ params.typical reference x y, colour = bitmap.get x y := by
  induction count with
  | zero => exact fun x hx => absurd hx (Nat.not_lt_zero x)
  | succ count ih =>
    rw [followsReference, Bool.and_eq_true] at h
    intro x hx colour hcolour
    rcases Nat.lt_succ_iff_lt_or_eq.mp hx with hlt | rfl
    · exact ih h.1 x hlt colour hcolour
    · have hlast := h.2
      rw [Option.mem_def.mp hcolour] at hlast
      exact eq_of_beq hlast

section

variable {bytes t : List UInt8} {e : Encoder} {d : Decoder} {contexts : Contexts}
  {params : RefinementParams} {reference bitmap known : Bitmap}

theorem decodePixel_encodePixel (h : Follows bytes t e d)
    (hcausal : ∀ p ∈ params.neighbours, p.causal = true) {skip : Bool} {x y : Nat}
    (hx : x < bitmap.width) (hpredicted : skip = true → Predicted params reference bitmap y)
    (hknown : bitmap.Known known x y)
    (hc : (encodePixel params reference bitmap skip x y e contexts).2.Completes bytes) :
    ∃ d', decodePixel params reference skip x y d contexts known =
        (bitmap.get x y, (encodePixel params reference bitmap skip x y e contexts).1, d') ∧
      Follows bytes t (encodePixel params reference bitmap skip x y e contexts).2 d' := by
  have hcontext : params.context known reference x y = params.context bitmap reference x y := by
    unfold RefinementParams.context
    rw [hknown.gather_eq hcausal]
  unfold encodePixel at hc ⊢
  unfold decodePixel
  rw [hcontext]
  cases skip with
  | false => exact h.decodeAt contexts _ _ hc
  | true =>
    cases hcolour : params.typical reference x y with
    | none =>
      rw [hcolour] at hc
      exact h.decodeAt contexts _ _ hc
    | some colour =>
      obtain rfl := hpredicted rfl x hx colour hcolour
      exact ⟨d, rfl, h⟩

theorem decodePixels_encodePixels (h : Follows bytes t e d)
    (hcausal : ∀ p ∈ params.neighbours, p.causal = true) {skip : Bool} {count x y : Nat}
    (hx : x + count = bitmap.width) (hy : y < bitmap.height)
    (hpredicted : skip = true → Predicted params reference bitmap y)
    (hknown : bitmap.Known known x y)
    (hc : (encodePixels params reference bitmap skip y count x e contexts).2.Completes bytes) :
    ∃ known' d', decodePixels params reference skip y count x d contexts known =
        (known', (encodePixels params reference bitmap skip y count x e contexts).1, d') ∧
      bitmap.Known known' 0 (y + 1) ∧
      Follows bytes t (encodePixels params reference bitmap skip y count x e contexts).2 d' := by
  induction count generalizing x e d contexts known with
  | zero =>
    obtain rfl : x = bitmap.width := hx
    exact ⟨known, d, rfl, hknown.nextRow, h⟩
  | succ count ih =>
    rw [encodePixels_succ] at hc ⊢
    have hready := (reaches_encodePixel params reference bitmap skip x y e contexts).ready h.ready
    obtain ⟨d', hbit, h'⟩ := decodePixel_encodePixel h hcausal (by omega) hpredicted hknown
      ((reaches_encodePixels ..).completes hready hc)
    obtain ⟨known', d'', hrest, hknown', h''⟩ :=
      ih h' (by omega) (hknown.set (by omega) hy) hc
    refine ⟨known', d'', ?_, hknown', h''⟩
    rw [decodePixels_succ, hbit]
    exact hrest

theorem decodeSkip_encodeSkip (h : Follows bytes t e d) {y : Nat} {skip : Bool}
    (hc : (encodeSkip params reference bitmap y skip e contexts).2.2.Completes bytes) :
    ∃ d', decodeSkip params skip d contexts =
        ((encodeSkip params reference bitmap y skip e contexts).1,
          (encodeSkip params reference bitmap y skip e contexts).2.1, d') ∧
      Follows bytes t (encodeSkip params reference bitmap y skip e contexts).2.2 d' := by
  cases hskips : params.skipsPixels with
  | false =>
    simp only [encodeSkip, decodeSkip, hskips, Bool.false_eq_true, if_false]
    exact ⟨d, rfl, h⟩
  | true =>
    simp only [encodeSkip, decodeSkip, hskips, if_true] at hc ⊢
    obtain ⟨d', hbit, h'⟩ := h.decodeAt contexts params.template.rowContext
      (followsReference params reference bitmap y bitmap.width != skip) hc
    refine ⟨d', ?_, h'⟩
    rw [hbit]
    cases skip <;> cases followsReference params reference bitmap y bitmap.width <;> rfl

/-- Pixels are left out only in a row that is as the reference predicts. -/
theorem predicted_of_encodeSkip {y : Nat} {skip : Bool}
    (hskip : (encodeSkip params reference bitmap y skip e contexts).1 = true) :
    Predicted params reference bitmap y := by
  unfold encodeSkip at hskip
  split at hskip
  · exact predicted_of_followsReference hskip
  · exact absurd hskip Bool.false_ne_true

theorem decodeRow_encodeRow (h : Follows bytes t e d)
    (hcausal : ∀ p ∈ params.neighbours, p.causal = true) {y : Nat} {skip : Bool}
    (hy : y < bitmap.height) (hknown : bitmap.Known known 0 y)
    (hc : (encodeRow params reference bitmap y skip e contexts).2.2.Completes bytes) :
    ∃ known' d', decodeRow params reference y skip d contexts known =
        ((encodeRow params reference bitmap y skip e contexts).1, known',
          (encodeRow params reference bitmap y skip e contexts).2.1, d') ∧
      bitmap.Known known' 0 (y + 1) ∧
      Follows bytes t (encodeRow params reference bitmap y skip e contexts).2.2 d' := by
  have hready := (reaches_encodeSkip params reference bitmap y skip e contexts).ready h.ready
  obtain ⟨d', hskip, h'⟩ := decodeSkip_encodeSkip h
    ((reaches_encodeRow ..).completes hready hc)
  unfold encodeRow at hc ⊢
  dsimp only at hc ⊢
  obtain ⟨known', d'', hpixels, hknown', h''⟩ := decodePixels_encodePixels h' hcausal
    (Nat.zero_add _) hy (fun hskip' => predicted_of_encodeSkip hskip') hknown hc
  unfold decodeRow
  rw [hskip, hknown.width]
  dsimp only
  rw [hpixels]
  exact ⟨known', d'', rfl, hknown', h''⟩

theorem decodeRows_encodeRows (h : Follows bytes t e d)
    (hcausal : ∀ p ∈ params.neighbours, p.causal = true) {count y : Nat} {skip : Bool}
    (hy : y + count = bitmap.height) (hknown : bitmap.Known known 0 y)
    (hc : (encodeRows params reference bitmap count y skip e contexts).2.Completes bytes) :
    ∃ d', decodeRows params reference count y skip d contexts known =
        .ok (bitmap, (encodeRows params reference bitmap count y skip e contexts).1, d') ∧
      Follows bytes t (encodeRows params reference bitmap count y skip e contexts).2 d' := by
  induction count generalizing y skip e d contexts known with
  | zero =>
    obtain rfl : y = bitmap.height := hy
    exact ⟨d, by rw [decodeRows, hknown.eq, encodeRows], h⟩
  | succ count ih =>
    rw [encodeRows_succ] at hc ⊢
    have hready := ((reaches_encodeSkip params reference bitmap y skip e contexts).trans
      (reaches_encodeRow ..)).ready h.ready
    have hc' := (reaches_encodeRows ..).completes hready hc
    obtain ⟨known', d', hrow, hknown', h'⟩ :=
      decodeRow_encodeRow h hcausal (by omega) hknown hc'
    obtain ⟨d'', hrest, h''⟩ := ih h' (by omega) hknown' hc
    refine ⟨d'', ?_, h''⟩
    rw [decodeRows_succ, hrow]
    simp only [h'.checkData hc']
    exact hrest

/-- A decoder that is in step and has the same reference decodes the bitmap that is encoded
next. -/
theorem decodeBitmap_encodeBitmap (h : Follows bytes t e d)
    (hcausal : params.atPixels.current.causal = true)
    (hc : (encodeBitmap params reference e contexts bitmap).2.Completes bytes) :
    ∃ d', decodeBitmap params reference d contexts (.blank bitmap.width bitmap.height) =
        .ok (bitmap, (encodeBitmap params reference e contexts bitmap).1, d') ∧
      Follows bytes t (encodeBitmap params reference e contexts bitmap).2 d' :=
  decodeRows_encodeRows h (RefinementParams.causal_neighbours hcausal) (Nat.zero_add _)
    (Bitmap.known_blank bitmap) hc

end

end Refinement
end Bilevel

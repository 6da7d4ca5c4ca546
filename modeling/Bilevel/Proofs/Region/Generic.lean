import Bilevel.Proofs.Mq.Values
import Bilevel.Proofs.Region.Partial

/-!
# Coding generic bitmaps

A decoder that is in step with an encoder decodes the bitmap that the encoder encodes next. The
contexts agree because they are formed by causal pixels, and a row that is left out is the same as
the one above.

## Main results

* `Generic.decodeBitmap_encodeBitmap` — bitmaps survive encoding and decoding.
-/

namespace Bilevel

open Mq

theorem GenericParams.causal_neighbours {params : GenericParams}
    (h : ∀ p ∈ params.atPixels, p.causal = true) : ∀ p ∈ params.neighbours, p.causal = true := by
  have hat : ∀ i, (params.atPixel i).causal = true := by
    intro i
    unfold atPixel
    rw [List.getD_eq_getElem?_getD]
    cases hp : params.atPixels[i]? with
    | none => rfl
    | some p => exact h p (List.mem_of_getElem? hp)
  have hall : params.neighbours.all AtPixel.causal = true := by
    unfold neighbours
    split <;> simp only [List.all_cons, hat] <;> rfl
  exact List.all_eq_true.mp hall

namespace Generic

/-! ## What is encoded -/

theorem reaches_encodePixels (neighbours : List AtPixel) (bitmap : Bitmap) (y count x : Nat)
    (e : Encoder) (contexts : Contexts) :
    e.Reaches (encodePixels neighbours bitmap y count x e contexts).2 := by
  induction count generalizing x e contexts with
  | zero => exact .refl e
  | succ count ih => exact (Encoder.Reaches.encodeAt e contexts _ _).trans (ih ..)

theorem reaches_encodeSkip (params : GenericParams) (bitmap : Bitmap) (y : Nat) (skip : Bool)
    (e : Encoder) (contexts : Contexts) :
    e.Reaches (encodeSkip params bitmap y skip e contexts).2.2 := by
  unfold encodeSkip
  split
  · exact Encoder.Reaches.encodeAt e contexts _ _
  · exact .refl e

/-- Encode one row. Also gives whether it is left out. -/
def encodeRow (params : GenericParams) (bitmap : Bitmap) (y : Nat) (skip : Bool) (e : Encoder)
    (contexts : Contexts) : Bool × Contexts × Encoder :=
  let (skip, contexts, e) := encodeSkip params bitmap y skip e contexts
  (skip, if skip then (contexts, e)
    else encodePixels params.neighbours bitmap y bitmap.width 0 e contexts)

theorem encodeRows_succ (params : GenericParams) (bitmap : Bitmap) (count y : Nat) (skip : Bool)
    (e : Encoder) (contexts : Contexts) :
    encodeRows params bitmap (count + 1) y skip e contexts =
      let (skip', contexts', e') := encodeRow params bitmap y skip e contexts
      encodeRows params bitmap count (y + 1) skip' e' contexts' := rfl

theorem reaches_encodeRow (params : GenericParams) (bitmap : Bitmap) (y : Nat) (skip : Bool)
    (e : Encoder) (contexts : Contexts) :
    (encodeSkip params bitmap y skip e contexts).2.2.Reaches
      (encodeRow params bitmap y skip e contexts).2.2 := by
  unfold encodeRow
  dsimp only
  split
  · exact .refl _
  · exact reaches_encodePixels ..

theorem reaches_encodeRows (params : GenericParams) (bitmap : Bitmap) (count y : Nat)
    (skip : Bool) (e : Encoder) (contexts : Contexts) :
    e.Reaches (encodeRows params bitmap count y skip e contexts).2 := by
  induction count generalizing y skip e contexts with
  | zero => exact .refl e
  | succ count ih =>
    exact (reaches_encodeSkip params bitmap y skip e contexts).trans
      ((reaches_encodeRow ..).trans (ih ..))

theorem reaches_encodeBitmap (params : GenericParams) (e : Encoder) (contexts : Contexts)
    (bitmap : Bitmap) : e.Reaches (encodeBitmap params e contexts bitmap).2 :=
  reaches_encodeRows ..

/-! ## Round trips -/

section

variable {bytes t : List UInt8} {e : Encoder} {d : Decoder} {contexts : Contexts}
  {bitmap known : Bitmap}

theorem decodePixels_encodePixels (h : Follows bytes t e d) {neighbours : List AtPixel}
    (hcausal : ∀ p ∈ neighbours, p.causal = true) {count x y : Nat}
    (hx : x + count = bitmap.width) (hy : y < bitmap.height) (hknown : bitmap.Known known x y)
    (hc : (encodePixels neighbours bitmap y count x e contexts).2.Completes bytes) :
    ∃ known' d', decodePixels neighbours y count x d contexts known =
        (known', (encodePixels neighbours bitmap y count x e contexts).1, d') ∧
      bitmap.Known known' 0 (y + 1) ∧
      Follows bytes t (encodePixels neighbours bitmap y count x e contexts).2 d' := by
  induction count generalizing x e d contexts known with
  | zero =>
    obtain rfl : x = bitmap.width := hx
    exact ⟨known, d, rfl, hknown.nextRow, h⟩
  | succ count ih =>
    let i := bitmap.gather x y neighbours 0
    have hstep : encodePixels neighbours bitmap y (count + 1) x e contexts =
        encodePixels neighbours bitmap y count (x + 1) (e.encodeAt contexts i (bitmap.get x y)).2
          (e.encodeAt contexts i (bitmap.get x y)).1 := rfl
    rw [hstep] at hc ⊢
    have hready := (Encoder.Reaches.encodeAt e contexts i (bitmap.get x y)).ready h.ready
    obtain ⟨d', hbit, h'⟩ := h.decodeAt contexts i (bitmap.get x y)
      ((reaches_encodePixels ..).completes hready hc)
    have hknown' := hknown.set (by omega) hy
    obtain ⟨known', d'', hrest, hknown'', h''⟩ := ih h' (by omega) hknown' hc
    refine ⟨known', d'', ?_, hknown'', h''⟩
    simp only [decodePixels, hknown.gather_eq hcausal]
    rw [hbit]
    exact hrest

theorem decodeSkip_encodeSkip (h : Follows bytes t e d) (params : GenericParams) {y : Nat}
    {skip : Bool} (hc : (encodeSkip params bitmap y skip e contexts).2.2.Completes bytes) :
    ∃ d', decodeSkip params skip d contexts = ((encodeSkip params bitmap y skip e contexts).1,
        (encodeSkip params bitmap y skip e contexts).2.1, d') ∧
      Follows bytes t (encodeSkip params bitmap y skip e contexts).2.2 d' := by
  cases hskips : params.skipsRows with
  | false =>
    simp only [encodeSkip, decodeSkip, hskips, Bool.false_eq_true, if_false]
    exact ⟨d, rfl, h⟩
  | true =>
    simp only [encodeSkip, decodeSkip, hskips, if_true] at hc ⊢
    obtain ⟨d', hbit, h'⟩ := h.decodeAt contexts params.template.rowContext
      (repeatsRow bitmap y != skip) hc
    refine ⟨d', ?_, h'⟩
    rw [hbit]
    cases skip <;> cases repeatsRow bitmap y <;> rfl

/-- A row is left out only if it is the same as the one above. -/
theorem get_of_encodeSkip {params : GenericParams} {y : Nat} {skip : Bool}
    (hy : y < bitmap.height) (hskip : (encodeSkip params bitmap y skip e contexts).1 = true)
    (x : Nat) : bitmap.get x y = if y = 0 then false else bitmap.get x (y - 1) := by
  unfold encodeSkip at hskip
  split at hskip
  · have hrepeats : repeatsRow bitmap y = true := hskip
    unfold repeatsRow at hrepeats
    split at hrepeats
    · next hzero =>
      rw [if_pos hzero, hzero]
      exact Bitmap.get_eq_false_of_row hrepeats x
    · next hpos =>
      rw [if_neg hpos]
      exact Bitmap.get_eq_of_sameRows hy (by omega) hrepeats x
  · exact absurd hskip Bool.false_ne_true

theorem decodeRow_encodeRow (h : Follows bytes t e d) {params : GenericParams}
    (hcausal : ∀ p ∈ params.neighbours, p.causal = true) {y : Nat} {skip : Bool}
    (hy : y < bitmap.height) (hknown : bitmap.Known known 0 y)
    (hc : (encodeRow params bitmap y skip e contexts).2.2.Completes bytes) :
    ∃ known' d', decodeRow params y skip d contexts known =
        ((encodeRow params bitmap y skip e contexts).1, known',
          (encodeRow params bitmap y skip e contexts).2.1, d') ∧
      bitmap.Known known' 0 (y + 1) ∧
      Follows bytes t (encodeRow params bitmap y skip e contexts).2.2 d' := by
  have hready := (reaches_encodeSkip params bitmap y skip e contexts).ready h.ready
  obtain ⟨d', hskip, h'⟩ := decodeSkip_encodeSkip h params
    ((reaches_encodeRow ..).completes hready hc)
  unfold decodeRow
  rw [hskip]
  unfold encodeRow at hc ⊢
  cases hleft : (encodeSkip params bitmap y skip e contexts).1 with
  | true =>
    have hknown' := hknown.repeatRow hy (get_of_encodeSkip hy hleft)
    simp only [hleft, if_true]
    exact ⟨_, d', rfl, hknown', h'⟩
  | false =>
    simp only [hleft, Bool.false_eq_true, if_false] at hc ⊢
    rw [hknown.width]
    obtain ⟨known', d'', hpixels, hknown', h''⟩ :=
      decodePixels_encodePixels h' hcausal (Nat.zero_add _) hy hknown hc
    rw [hpixels]
    exact ⟨known', d'', rfl, hknown', h''⟩

theorem decodeRows_encodeRows (h : Follows bytes t e d) {params : GenericParams}
    (hcausal : ∀ p ∈ params.neighbours, p.causal = true) {count y : Nat} {skip : Bool}
    (hy : y + count = bitmap.height) (hknown : bitmap.Known known 0 y)
    (hc : (encodeRows params bitmap count y skip e contexts).2.Completes bytes) :
    ∃ d', decodeRows params count y skip d contexts known =
        .ok (bitmap, (encodeRows params bitmap count y skip e contexts).1, d') ∧
      Follows bytes t (encodeRows params bitmap count y skip e contexts).2 d' := by
  induction count generalizing y skip e d contexts known with
  | zero =>
    obtain rfl : y = bitmap.height := hy
    exact ⟨d, by rw [decodeRows, hknown.eq, encodeRows], h⟩
  | succ count ih =>
    rw [encodeRows_succ] at hc ⊢
    have hready := ((reaches_encodeSkip params bitmap y skip e contexts).trans
      (reaches_encodeRow ..)).ready h.ready
    have hc' := (reaches_encodeRows ..).completes hready hc
    obtain ⟨known', d', hrow, hknown', h'⟩ :=
      decodeRow_encodeRow h hcausal (by omega) hknown hc'
    obtain ⟨d'', hrest, h''⟩ := ih h' (by omega) hknown' hc
    refine ⟨d'', ?_, h''⟩
    rw [decodeRows_succ, hrow]
    simp only [h'.checkData hc']
    exact hrest

/-- A decoder that is in step decodes the bitmap that is encoded next. -/
theorem decodeBitmap_encodeBitmap (h : Follows bytes t e d) {params : GenericParams}
    (hcausal : ∀ p ∈ params.atPixels, p.causal = true)
    (hc : (encodeBitmap params e contexts bitmap).2.Completes bytes) :
    ∃ d', decodeBitmap params d contexts (.blank bitmap.width bitmap.height) =
        .ok (bitmap, (encodeBitmap params e contexts bitmap).1, d') ∧
      Follows bytes t (encodeBitmap params e contexts bitmap).2 d' :=
  decodeRows_encodeRows h (GenericParams.causal_neighbours hcausal) (Nat.zero_add _)
    (Bitmap.known_blank bitmap) hc

end

end Generic
end Bilevel

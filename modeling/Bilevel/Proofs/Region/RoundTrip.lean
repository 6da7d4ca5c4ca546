import Bilevel.Proofs.Region.Data

/-!
# Regions and streams of bitmaps

Generic regions are decoded as the bitmap that was encoded, with the size and the place of the
region. Below that, bitmaps can be coded one after another in one stream. Each of them goes on with
what the ones before it have taught the contexts, so both sides have to have learnt the same behind
every bitmap. A refinement is decoded with the same reference, wherever this stands and whatever
size it has.

## Main definitions

* `Generic.encodeBitmaps`, `Generic.decodeBitmaps` — bitmaps one after another in one stream.
* `RefinementParams.nominal` — the same coding with the adaptive pixels in their usual places.

## Main results

* `Generic.decodeBitmaps_encodeBitmaps` — bitmaps in one stream survive.
* `Generic.bitmaps_roundTrip` — generic regions and bitmaps in one stream.
* `Refinement.bitmap_roundTrip` — refinements, and refinement regions.
-/

namespace Bilevel

open Mq

/-! ## Generic bitmaps in one stream -/

namespace Generic

/-- Encode bitmaps one after another, each in its own way. -/
def encodeBitmaps (e : Encoder) (contexts : Contexts) :
    List (GenericParams × Bitmap) → Contexts × Encoder
  | [] => (contexts, e)
  | (params, bitmap) :: rest =>
    let (contexts, e) := encodeBitmap params e contexts bitmap
    encodeBitmaps e contexts rest

/-- Decode bitmaps of given widths and heights one after another. -/
def decodeBitmaps (d : Decoder) (contexts : Contexts) :
    List (GenericParams × Nat × Nat) → Except DecodeError (List Bitmap × Contexts × Decoder)
  | [] => .ok ([], contexts, d)
  | (params, width, height) :: rest => do
    let (bitmap, contexts, d) ← decodeBitmap params d contexts (.blank width height)
    let (bitmaps, contexts, d) ← decodeBitmaps d contexts rest
    return (bitmap :: bitmaps, contexts, d)

/-- What a decoder has to know about a bitmap in front of it. -/
def shapeOf (coded : GenericParams × Bitmap) : GenericParams × Nat × Nat :=
  (coded.1, coded.2.width, coded.2.height)

theorem encodeBitmaps_append (e : Encoder) (contexts : Contexts)
    (coded more : List (GenericParams × Bitmap)) :
    encodeBitmaps e contexts (coded ++ more) =
      encodeBitmaps (encodeBitmaps e contexts coded).2 (encodeBitmaps e contexts coded).1 more := by
  induction coded generalizing e contexts with
  | nil => rfl
  | cons first coded ih => exact ih _ _

theorem reaches_encodeBitmaps (e : Encoder) (contexts : Contexts)
    (coded : List (GenericParams × Bitmap)) : e.Reaches (encodeBitmaps e contexts coded).2 := by
  induction coded generalizing e contexts with
  | nil => exact .refl e
  | cons first coded ih => exact (reaches_encodeBitmap ..).trans (ih _ _)

/-- A decoder that is in step decodes the bitmaps that are encoded next, and has learnt the same. -/
theorem decodeBitmaps_encodeBitmaps {bytes t : List UInt8} {e : Encoder} {d : Decoder}
    {contexts : Contexts} (h : Follows bytes t e d) {coded : List (GenericParams × Bitmap)}
    (hcausal : ∀ c ∈ coded, ∀ p ∈ c.1.atPixels, p.causal = true)
    (hc : (encodeBitmaps e contexts coded).2.Completes bytes) :
    ∃ d', decodeBitmaps d contexts (coded.map shapeOf) =
        .ok (coded.map (·.2), (encodeBitmaps e contexts coded).1, d') ∧
      Follows bytes t (encodeBitmaps e contexts coded).2 d' := by
  induction coded generalizing e d contexts with
  | nil => exact ⟨d, rfl, h⟩
  | cons first coded ih =>
    obtain ⟨params, bitmap⟩ := first
    have hready := (reaches_encodeBitmap params e contexts bitmap).ready h.ready
    have hc' : (encodeBitmaps (encodeBitmap params e contexts bitmap).2
        (encodeBitmap params e contexts bitmap).1 coded).2.Completes bytes := hc
    obtain ⟨d', hfirst, h'⟩ := decodeBitmap_encodeBitmap h (hcausal _ List.mem_cons_self)
      ((reaches_encodeBitmaps _ _ coded).completes hready hc')
    obtain ⟨d'', hrest, h''⟩ := ih h' (fun c hc => hcausal c (List.mem_cons_of_mem _ hc)) hc'
    refine ⟨d'', ?_, h''⟩
    simp only [List.map_cons, shapeOf, decodeBitmaps, Bind.bind, Except.bind, hfirst]
    rw [hrest]
    rfl

/-- A region survives with its bitmap, its size and its place. So do any number of bitmaps in one
stream: after some of them, the decoder has given them back and has learnt what the encoder had
learnt then. -/
theorem bitmaps_roundTrip {settings : DecodeSettings}
    (hsettings : 0x40000000 ≤ settings.maxPixelCount) :
    (∀ (info : RegionInfo) (params : GenericParams) (bitmap : Bitmap), info.Fits →
      Writable params → info.width = bitmap.width → info.height = bitmap.height →
      bitmap.width * bitmap.height ≤ 0x40000000 →
      decodeRegion settings (encodeRegion info params bitmap) false = .ok ⟨info, bitmap⟩) ∧
    ∀ (contexts : Contexts) (coded more : List (GenericParams × Bitmap)),
      (∀ c ∈ coded, ∀ p ∈ c.1.atPixels, p.causal = true) →
      let stream := (encodeBitmaps .start contexts (coded ++ more)).2.finish
      ∃ d, decodeBitmaps (Decoder.ofBytes stream) contexts (coded.map shapeOf) =
        .ok (coded.map (·.2), (encodeBitmaps .start contexts coded).1, d) := by
  constructor
  · intro info params bitmap hinfo hparams hwidth hheight hsize
    exact decodeRegion_encodeRegion hinfo hparams hwidth hheight (hsize.trans hsettings)
  · intro contexts coded more hcausal stream
    have hreach := reaches_encodeBitmaps .start contexts (coded ++ more)
    have hmore := reaches_encodeBitmaps (encodeBitmaps .start contexts coded).2
      (encodeBitmaps .start contexts coded).1 more
    rw [← encodeBitmaps_append] at hmore
    have hready := (reaches_encodeBitmaps .start contexts coded).ready Encoder.start_ready
    have hcompletes := hmore.completes hready (completes_flushed_of_reaches hreach)
    obtain ⟨d, hd, -⟩ := decodeBitmaps_encodeBitmaps (follows_finish hreach) hcausal hcompletes
    exact ⟨d, hd⟩

/-- A region with an adaptive pixel in the row of the coded one, and a stream in which a bitmap
without rows and one whose rows are all the same stand in front of a third. -/
theorem bitmaps_roundTrip_moved :
    let params : GenericParams := ⟨.template1, true, [⟨-5, 0⟩]⟩
    let info : RegionInfo := ⟨3, 2, 4, 5, .xor⟩
    let bars := ((Bitmap.blank 3 2).set 1 0 true).set 1 1 true
    let coded := [(params, Bitmap.blank 3 0), (params, bars)]
    let stream := (encodeBitmaps .start params.freshContexts (coded ++ [(params, bars)])).2.finish
    decodeRegion {} (encodeRegion info params bars) false = .ok ⟨info, bars⟩ ∧
      ∃ d, decodeBitmaps (Decoder.ofBytes stream) params.freshContexts (coded.map shapeOf) =
        .ok (coded.map (·.2), (encodeBitmaps .start params.freshContexts coded).1, d) := by
  intro params info bars coded stream
  have hparams : Writable params := ⟨by decide, by decide, by decide⟩
  have hinfo : info.Fits := ⟨by decide, by decide, by decide, by decide⟩
  have hwidth : bars.width = 3 := by
    simp only [bars, Bitmap.width_set]
    rfl
  have hheight : bars.height = 2 := by
    simp only [bars, Bitmap.height_set]
    rfl
  have hcausal : ∀ c ∈ coded, ∀ p ∈ c.1.atPixels, p.causal = true := by
    simp only [coded, List.forall_mem_cons]
    exact ⟨hparams.causal, hparams.causal, fun c hc => absurd hc List.not_mem_nil⟩
  have hsettings : 0x40000000 ≤ ({} : DecodeSettings).maxPixelCount := by decide
  refine ⟨(bitmaps_roundTrip hsettings).1 info params bars hinfo hparams hwidth.symm hheight.symm
    ?_, (bitmaps_roundTrip hsettings).2 params.freshContexts coded [(params, bars)] hcausal⟩
  rw [hwidth, hheight]
  decide

end Generic

/-! ## Refinements -/

/-- The same coding with the adaptive pixels in their usual places. -/
def RefinementParams.nominal (params : RefinementParams) : RefinementParams :=
  { params with atPixels := {} }

namespace Refinement

section

variable {params : RefinementParams} (h : params.template = .template1)
include h

/-- The second template has no adaptive pixels, so that it makes no difference where they are. -/
theorem context_nominal : params.nominal.context = params.context := by
  funext bitmap reference x y
  simp only [RefinementParams.context, RefinementParams.neighbours,
    RefinementParams.referenceNeighbours, RefinementParams.nominal, h]

theorem encodePixel_nominal : encodePixel params.nominal = encodePixel params := by
  funext reference bitmap skip x y e contexts
  unfold encodePixel
  rw [context_nominal h]
  rfl

theorem encodePixels_nominal (reference bitmap : Bitmap) (skip : Bool) (y count x : Nat)
    (e : Encoder) (contexts : Contexts) :
    encodePixels params.nominal reference bitmap skip y count x e contexts =
      encodePixels params reference bitmap skip y count x e contexts := by
  induction count generalizing x e contexts with
  | zero => rfl
  | succ count ih => rw [encodePixels_succ, encodePixels_succ, encodePixel_nominal h, ih]

omit h in
theorem followsReference_nominal (reference bitmap : Bitmap) (y count : Nat) :
    followsReference params.nominal reference bitmap y count =
      followsReference params reference bitmap y count := by
  induction count with
  | zero => rfl
  | succ count ih =>
    rw [followsReference, followsReference, ih]
    rfl

theorem encodeRow_nominal (reference bitmap : Bitmap) (y : Nat) (skip : Bool) (e : Encoder)
    (contexts : Contexts) : encodeRow params.nominal reference bitmap y skip e contexts =
      encodeRow params reference bitmap y skip e contexts := by
  unfold encodeRow encodeSkip
  simp only [followsReference_nominal, encodePixels_nominal h]
  rfl

theorem encodeBitmap_nominal (reference : Bitmap) (e : Encoder) (contexts : Contexts)
    (bitmap : Bitmap) : encodeBitmap params.nominal reference e contexts bitmap =
      encodeBitmap params reference e contexts bitmap := by
  unfold encodeBitmap
  generalize bitmap.height = count
  generalize 0 = y
  generalize false = skip
  induction count generalizing y skip e contexts with
  | zero => rfl
  | succ count ih =>
    rw [encodeRows_succ, encodeRows_succ, encodeRow_nominal h]
    exact ih ..

theorem encodeRegion_nominal (info : RegionInfo) (reference bitmap : Bitmap) :
    encodeRegion info params.nominal reference bitmap =
      encodeRegion info params reference bitmap := by
  have hfresh : params.nominal.freshContexts = params.freshContexts := rfl
  have hheader : headerBytes info params.nominal = headerBytes info params := by
    simp only [headerBytes, flagsOf, RefinementParams.nominal, h, reduceCtorEq, if_false]
  rw [encodeRegion_eq, encodeRegion_eq, encodeBitmap_nominal h, hfresh, hheader]

end

/-- A refinement survives with the same reference, of whatever size and wherever it stands, and both
sides have learnt the same then. So does a refinement region whose reference has its size. -/
theorem bitmap_roundTrip {params : RefinementParams}
    (hcausal : params.atPixels.current.causal = true) (reference bitmap : Bitmap) :
    (∀ contexts : Contexts,
      let stream := (encodeBitmap params reference .start contexts bitmap).2.finish
      ∃ d, decodeBitmap params reference (Decoder.ofBytes stream) contexts
          (.blank bitmap.width bitmap.height) =
        .ok (bitmap, (encodeBitmap params reference .start contexts bitmap).1, d)) ∧
    ∀ (settings : DecodeSettings) (info : RegionInfo), 0x40000000 ≤ settings.maxPixelCount →
      info.Fits → params.atPixels.current.Fits ∧ params.atPixels.reference.Fits →
      params.dx = 0 ∧ params.dy = 0 →
      info.width = bitmap.width ∧ info.height = bitmap.height →
      reference.width = bitmap.width ∧ reference.height = bitmap.height →
      bitmap.width * bitmap.height ≤ 0x40000000 →
      decodeRegion settings (encodeRegion info params reference bitmap) reference =
        .ok ⟨info, bitmap⟩ := by
  constructor
  · intro contexts stream
    have hreach := reaches_encodeBitmap params reference .start contexts bitmap
    obtain ⟨d, hd, -⟩ := decodeBitmap_encodeBitmap (follows_finish hreach) hcausal
      (completes_flushed_of_reaches hreach)
    exact ⟨d, hd⟩
  · intro settings info hsettings hinfo hfits hoffset hsizes hreference hsize
    cases htemplate : params.template with
    | template0 =>
      have hparams : Writable params :=
        ⟨hcausal, hfits, fun hother => absurd htemplate hother, hoffset.1, hoffset.2⟩
      exact decodeRegion_encodeRegion hinfo hparams hsizes.1 hsizes.2 hreference
        (hsize.trans hsettings)
    | template1 =>
      have hparams : Writable params.nominal :=
        ⟨rfl, (writable_nominal .template0 false).fits, fun _ => rfl, hoffset.1, hoffset.2⟩
      rw [← encodeRegion_nominal htemplate]
      exact decodeRegion_encodeRegion hinfo hparams hsizes.1 hsizes.2 hreference
        (hsize.trans hsettings)

/-- A region without adaptive pixels in its header, although they have been moved. -/
theorem bitmap_roundTrip_moved :
    let params : RefinementParams := ⟨.template1, true, ⟨⟨-2, 0⟩, ⟨5, 5⟩⟩, 0, 0⟩
    let info : RegionInfo := ⟨2, 2, 1, 0, .replace⟩
    let dot := (Bitmap.blank 2 2).set 1 0 true
    let reference := Bitmap.blank 2 2
    let stream := (encodeBitmap params reference .start params.freshContexts dot).2.finish
    (∃ d, decodeBitmap params reference (Decoder.ofBytes stream) params.freshContexts
        (.blank dot.width dot.height) =
          .ok (dot, (encodeBitmap params reference .start params.freshContexts dot).1, d)) ∧
      decodeRegion {} (encodeRegion info params reference dot) reference = .ok ⟨info, dot⟩ := by
  intro params info dot reference stream
  have hcausal : params.atPixels.current.causal = true := by decide
  have hwidth : dot.width = 2 := by
    simp only [dot, Bitmap.width_set]
    rfl
  have hheight : dot.height = 2 := by
    simp only [dot, Bitmap.height_set]
    rfl
  have hinfo : info.Fits := ⟨by decide, by decide, by decide, by decide⟩
  have hfits : params.atPixels.current.Fits ∧ params.atPixels.reference.Fits := by decide
  refine ⟨(bitmap_roundTrip hcausal reference dot).1 params.freshContexts,
    (bitmap_roundTrip hcausal reference dot).2 {} info (by decide) hinfo hfits ⟨rfl, rfl⟩
      ⟨hwidth.symm, hheight.symm⟩ ⟨hwidth.symm, hheight.symm⟩ ?_⟩
  rw [hwidth, hheight]
  decide

end Refinement
end Bilevel

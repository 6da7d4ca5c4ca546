import Bilevel.Proofs.Trace.Document

/-!
# Coordinates in the refinements of a stream

Refinements are regions, instances of symbols in text regions, and symbols of dictionaries. For a
region the reference has the same place. For an instance its distance is checked to fit a signed
number of 32 bits, and for a symbol it is a number that was read, which fits one too. Nowhere is it
checked that the coordinates that are worked out from the distance fit, and so they don't always.
Where arithmetic traps, a stream with such a symbol can't be decoded, not even the pages that
don't use it. Where it wraps around, the same pixels are decoded as with exact numbers.

## Main results

* `Document.refinings_near` — which coordinates fit, and what comes of it.
-/

namespace Bilevel

open Refining

namespace Document

/-- A stream chooses the distances of references freely, among the numbers that fit: the coordinates
that follow from them fit just when the distances are small enough for the sizes of the bitmaps. In
refinement regions they always do, and so do those in the bitmaps themselves. Where they don't fit,
wrapping arithmetic decodes the same pixels as exact arithmetic. Arithmetic that traps gives the same
document unless a coordinate doesn't fit that decoding comes to, and then it gives none. Decoding
comes to all coordinates of a refinement in which no pixels are left out, if it is decoded to its
end. -/
theorem refinings_near (settings : DecodeSettings) (hlimit : settings.maxPixelCount ≤ pixelLimit)
    (globals : Option Globals)
    (hglobals : ∀ g ∈ globals, ∃ data, g = Globals.ofBytes settings data)
    (items : List StreamItem) :
    (∀ r overflows, .refined r overflows ∈ events settings globals items →
      (FitsSigned r.params.dx ∧ FitsSigned r.params.dy) ∧
      (r.InRange ↔ r.bitmap.width = 0 ∨ r.bitmap.height = 0 ∨ r.Near) ∧
      (∀ x y : Nat, x < r.bitmap.width → y < r.bitmap.height →
        RefinementParams.AroundFits x y r.params.neighbours) ∧
      (∀ decoder contexts, r.decodeExact decoder contexts =
        Refinement.decodeBitmap r.params r.reference decoder contexts r.bitmap) ∧
      (overflows = true → ¬r.InRange) ∧
      ∃ decoder contexts, r.decodeWatched decoder contexts =
          (Refinement.decodeBitmap r.params r.reference decoder contexts r.bitmap, overflows) ∧
        (r.params.skipsPixels = false →
          (Refinement.decodeBitmap r.params r.reference decoder contexts r.bitmap).isOk →
            (overflows = true ↔ ¬r.InRange))) ∧
    (∀ v ∈ Assembly.visits settings (globals.map (·.store)) {} items, ∀ segment use,
      v.item = .segment segment → segment.header.kind = .region .refinement use →
        ∀ r overflows, .refined r overflows ∈
          v.state.events settings (globals.map (·.store)) v.item → r.InRange) ∧
    Trapping.document settings globals items =
      if (events settings globals items).any Event.overflows then none
      else some (ofItems settings globals items) := by
  refine ⟨fun r overflows hr => ?_, fun v hv segment use hitem hkind r overflows hr => ?_,
    Trapping.document_eq hglobals items⟩
  · obtain ⟨haccepted, decoder, contexts, rfl⟩ := sound_of_mem_events hglobals hr
    have haddressable : r.Addressable := haccepted.mono hlimit
    refine ⟨⟨haccepted.dx, haccepted.dy⟩, haddressable.inRange_iff,
      fun x y hx hy => haddressable.neighbours_fit hx hy, haddressable.decodeExact_eq,
      fun hoverflows hrange => ?_, decoder, contexts, ?_, fun hskips hok => ?_⟩
    · rw [hrange.not_overflows] at hoverflows
      cases hoverflows
    · exact Prod.ext (r.decodeWatched_fst decoder contexts) rfl
    · obtain ⟨result, hresult⟩ := exists_of_isOk hok
      exact overflows_iff hskips ((r.decodeWatched_fst decoder contexts).trans hresult)
  · have hshared := all_shared hglobals
    have hwithin := within_visits hglobals hv
    have haddressable : r.Addressable :=
      (Assembly.sound_of_mem_events hwithin hshared hr).1.mono hlimit
    rw [hitem] at hr
    obtain ⟨hdx, hdy⟩ := Assembly.still_of_mem_events hwithin hshared hkind hr
    exact haddressable.inRange_of_small (by simp [hdx]) (by simp [hdy])

/-- Two empty pages, and a dictionary of two symbols of one pixel. The second symbol is a refinement
of the first one, which is `2 ^ 31` columns to the left. -/
def farSymbol : Bytes :=
  #[0, 0, 0, 0, 48, 0, 1, 0, 0, 0, 19, 0, 0, 0, 1, 0, 0, 0, 1, 0, 0, 0, 0, 0, 0, 0, 0, 0, 0, 0,
    0, 0, 0, 1, 0, 0, 1, 0, 0, 0, 20, 0x10, 3, 0, 0, 0, 2, 0, 0, 0, 2,
    0x40, 2, 0xFC, 0xFF, 0xFF, 0xFF, 0xCE, 0, 0xFC, 2,
    0, 0, 0, 2, 49, 0, 1, 0, 0, 0, 0,
    0, 0, 0, 3, 48, 0, 2, 0, 0, 0, 19, 0, 0, 0, 1, 0, 0, 0, 1, 0, 0, 0, 0, 0, 0, 0, 0, 0, 0, 0,
    0, 0, 0, 4, 49, 0, 2, 0, 0, 0, 0]

/-- The distance of the reference and the size of the bitmap, of a refinement in which a coordinate
doesn't fit. -/
def farAway? : Event → Option (Int × Nat × Nat)
  | .refined r true => some (r.params.dx, r.bitmap.width, r.bitmap.height)
  | _ => none

theorem refinings_near_farSymbol :
    let globals := Globals.ofBytes {} #[]
    let noted := events {} (some globals) (Stream.embedded farSymbol)
    (∃ data, globals = Globals.ofBytes {} data) ∧
      noted.toList.filterMap farAway? = [(-0x80000000, 1, 1)] ∧
      ∀ r overflows, .refined r overflows ∈ noted → overflows = true → ¬r.InRange := by
  intro globals noted
  obtain ⟨h, -⟩ := refinings_near {} (by decide) (some globals)
    (fun g hg => ⟨#[], (Option.some.inj hg).symm⟩) (Stream.embedded farSymbol)
  exact ⟨⟨#[], rfl⟩, by decide +kernel, fun r overflows hr => (h r overflows hr).2.2.2.2.1⟩

/-- The dictionary is accepted although there is no such column, and the document is lost where
arithmetic traps. -/
theorem refinings_farSymbol :
    (ofItems {} none (Stream.embedded farSymbol)).failures = #[] ∧
      (Trapping.decode {} none farSymbol).isNone ∧
      ¬∀ r overflows, .refined r overflows ∈ events {} none (Stream.embedded farSymbol) →
        r.InRange := by
  obtain ⟨hfailures, hnone, hfar⟩ : (ofItems {} none (Stream.embedded farSymbol)).failures = #[] ∧
      (Trapping.decode {} none farSymbol).isNone ∧ (-0x80000000, 1, 1) ∈
        (events {} none (Stream.embedded farSymbol)).toList.filterMap farAway? := by
    decide +kernel
  refine ⟨hfailures, hnone, fun hrange => ?_⟩
  obtain ⟨e, he, hfar⟩ := List.mem_filterMap.mp hfar
  unfold farAway? at hfar
  split at hfar
  · next r =>
    obtain ⟨hdx, hwidth, hheight⟩ := by simpa using hfar
    have hplace := (hrange r true (Array.mem_def.mpr he) 0 (by omega) 0 (by omega)).place.1.1
    rw [hdx] at hplace
    exact absurd hplace (by decide)
  · cases hfar

end Document
end Bilevel

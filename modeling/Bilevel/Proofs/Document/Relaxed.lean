import Bilevel.Document.Decode
import Bilevel.Proofs.Document.Visits
import Bilevel.Proofs.Symbol.Relaxed

/-!
# Relaxing the settings

A stream that is decoded without any failure is decoded to the same document under settings that
allow more. Every segment that can be decoded still can be, and changes the assembly in the same
way; a failure is never forgotten, so that none at the end means none at any segment. It is
different if there was a failure: what couldn't be decoded may be decoded under relaxed settings,
and its page is then no longer passed over.

## Main results

* `Assembly.survives_decode` — a segment that can be decoded survives.
* `Assembly.run_eq_of_relaxed` — so does a whole run without failures.
* `relaxing_keeps_document` — relaxing the settings never changes a good result.
-/

namespace Bilevel

/-! ## Failures -/

namespace Assembly

variable {settings : DecodeSettings} {shared : Option Store} {a : Assembly}

theorem failures_of_failAll {page : Nat} {number : Option Nat} {error : DecodeError}
    (hnone : (a.failAll page number error).failures = #[]) : a.failures = #[] := by
  unfold failAll at hnone
  dsimp only at hnone
  generalize (if a.openNumbers.isEmpty = true then [page] else a.openNumbers) = numbers at hnone
  induction numbers generalizing a with
  | nil => exact hnone
  | cons n numbers ih =>
    have hfail := ih hnone
    rw [fail_failures] at hfail
    exact absurd hfail Array.push_ne_empty

/-- A run never forgets a failure. -/
theorem failures_of_run {items : List StreamItem}
    (hnone : (run settings shared a items).failures = #[]) : a.failures = #[] := by
  induction items generalizing a with
  | nil => exact (endAll_failures a).symm.trans hnone
  | cons item items ih =>
    cases item with
    | segment s =>
      rw [run] at hnone
      apply failures_of_process
      split at hnone
      · exact (endAll_failures _).symm.trans hnone
      · exact ih hnone
    | invalid header error =>
      have hfail := ih hnone
      rw [fail_failures] at hfail
      exact absurd hfail Array.push_ne_empty
    | broken header error => exact failures_of_failAll hnone

end Assembly

variable {settings settings' : DecodeSettings} (h : settings.Relaxed settings')

/-! ## Pages -/

namespace OpenPage

include h

theorem survives_start (info : PageInfo) :
    Survives Eq (start settings info) (start settings' info) := by
  unfold start
  dsimp only
  split
  · exact .throw_bind _
  · exact .bind_eq (Bitmap.survives_create h.maxPixelCount _ _) fun _ => .refl _

theorem survives_grow (page : OpenPage) (height : Nat) :
    Survives Eq (page.grow settings height) (page.grow settings' height) := by
  unfold grow
  split
  · exact .refl _
  · split
    · exact .error _ _
    · rw [if_neg (by have := h.maxPixelCount; omega)]
      exact .refl _

theorem survives_makeRoom (page : OpenPage) (info : RegionInfo) :
    Survives Eq (page.makeRoom settings info) (page.makeRoom settings' info) :=
  .step fun _ => .step fun bottom => survives_grow h page bottom

theorem survives_draw (page : OpenPage) (region : Region) :
    Survives Eq (page.draw settings region) (page.draw settings' region) :=
  .bind_eq (survives_makeRoom h page region.info) fun _ => .refl _

end OpenPage

/-! ## Segments -/

namespace Assembly

variable (shared : Option Store) (a : Assembly) (segment : Segment)

include h

theorem survives_place (header : SegmentHeader) (use : RegionUse) (region : Region) :
    Survives Eq (a.place settings header use region) (a.place settings' header use region) := by
  unfold place
  split
  · exact .refl _
  · exact .step fun page => .bind_eq (page.survives_draw h region) fun _ => .refl _

theorem survives_reference : Survives Eq (a.reference settings shared segment)
    (a.reference settings' shared segment) := by
  refine .bind_eq ((RegionInfo.persists_read h).survives _) fun ⟨info, r⟩ => ?_
  dsimp only
  split
  · exact .refl _
  · refine .step fun page => .bind_eq (page.survives_makeRoom h info) fun room => ?_
    exact .bind_eq (room.bitmap.survives_crop h.maxPixelCount _ _ _ _) fun _ => .refl _

theorem survives_decodeRegion (use : RegionUse) (coding : RegionCoding) :
    Survives Eq (a.decodeRegion settings shared segment use coding)
      (a.decodeRegion settings' shared segment use coding) := by
  cases coding with
  | halftone => exact .refl _
  | generic =>
    exact .step fun _ => .bind_eq (Generic.survives_decodeRegion h _ _) fun region =>
      a.survives_place h segment.header use region
  | text =>
    refine .step fun _ => .step fun inputs => ?_
    exact .bind_eq (Text.survives_decodeRegion h _ _ _) fun decoded => .step fun noted =>
      noted.survives_place h segment.header use decoded.region
  | refinement =>
    refine .step fun _ => .bind_eq (a.survives_reference h shared segment) fun ⟨bitmap, b⟩ => ?_
    exact .bind_eq (Refinement.survives_decodeRegion h _ _) fun region =>
      b.survives_place h segment.header use region

/-- Under relaxed settings, a segment that can be decoded does the same. -/
theorem survives_decode : Survives Eq (a.decode settings shared segment)
    (a.decode settings' shared segment) := by
  unfold decode
  split
  · unfold startPage
    dsimp only
    split
    · exact .throw_bind _
    · exact .step fun ⟨info, _⟩ => .bind_eq (OpenPage.survives_start h info) fun _ => .refl _
  · exact .refl _
  · refine .step fun ⟨row, _⟩ => .step fun page => .step fun height => ?_
    exact .bind_eq (page.survives_grow h height) fun _ => .refl _
  iterate 4 exact .refl _
  · exact .refl _
  · exact .step fun inputs => .bind_eq (Symbol.survives_decode h _ _ _ _) fun _ => .refl _
  · exact .refl _
  · exact a.survives_decodeRegion h shared segment _ _

/-! ## Runs -/

/-- What deals with a segment without a failure still does the same. -/
theorem process_eq_of_relaxed (hnone : (a.process settings shared segment).failures = #[]) :
    a.process settings' shared segment = a.process settings shared segment := by
  rcases processed_process settings shared segment a with
    ⟨passed, eq⟩ | ⟨passed, b, ok, eq⟩ | ⟨-, e, -, eq⟩
  · rw [eq, process, if_pos passed]
  · have hok := (a.survives_decode h shared segment).eq_ok ok
    rw [eq, process, passed, hok]
    rfl
  · rw [eq, fail_failures] at hnone
    exact absurd hnone Array.push_ne_empty

/-- Under relaxed settings, a run without failures comes to the same. -/
theorem run_eq_of_relaxed (items : List StreamItem)
    (hnone : (run settings shared a items).failures = #[]) :
    run settings' shared a items = run settings shared a items := by
  induction items generalizing a with
  | nil => rfl
  | cons item items ih =>
    cases item with
    | segment s =>
      rw [run] at hnone
      rw [run, run]
      have hprocess : (a.process settings shared s).failures = #[] := by
        split at hnone
        · exact (endAll_failures _).symm.trans hnone
        · exact failures_of_run hnone
      rw [a.process_eq_of_relaxed h shared s hprocess]
      split
      · rfl
      · next hends => exact ih _ (by rwa [if_neg hends] at hnone)
    | invalid header error => exact ih _ hnone
    | broken header error => rfl

end Assembly

/-! ## Streams -/

/-- Relaxing the settings never changes a good result. The items of a stream of which none fails
come to the same document, with the same pages, texts and dictionaries, under settings with no
smaller limit that check reserved bits only if the others do. So does a stream, with whatever is
shared, and a file. -/
theorem relaxing_keeps_document {settings settings' : DecodeSettings}
    (h : settings.Relaxed settings') (globals : Option Globals) :
    (∀ items, (Document.ofItems settings globals items).failures = #[] →
      Document.ofItems settings' globals items = Document.ofItems settings globals items) ∧
    (∀ data document, decode settings globals data = .ok document → document.failures = #[] →
      decode settings' globals data = .ok document) ∧
    ∀ data document, decodeFile settings data = .ok document → document.failures = #[] →
      decodeFile settings' data = .ok document := by
  have hitems : ∀ globals items, (Document.ofItems settings globals items).failures = #[] →
      Document.ofItems settings' globals items = Document.ofItems settings globals items := by
    intro globals items hnone
    unfold Document.ofItems
    dsimp only
    rw [Assembly.run_eq_of_relaxed h _ {} items hnone]
  refine ⟨hitems globals, fun data document hdecode hnone => ?_,
    fun data document hdecode hnone => ?_⟩
  · obtain rfl := Document.eq_of_check hdecode
    rw [decode, hitems globals _ hnone]
    exact hdecode
  · obtain ⟨items, hfile, hcheck⟩ := bind_eq_ok.mp hdecode
    obtain rfl := Document.eq_of_check hcheck
    refine bind_eq_ok.mpr ⟨items, hfile, ?_⟩
    rw [hitems none items hnone]
    exact hcheck

/-- A page of two rows, on the first of which a region is drawn. The strict settings allow just the
sixteen pixels that it has. -/
theorem relaxing_keeps_document_strict :
    let settings : DecodeSettings := { maxPixelCount := 16, strict := true }
    let header (number : Nat) (kind : SegmentKind) (length : Nat) : SegmentHeader :=
      ⟨number, kind, false, [], [], 1, some length⟩
    let start : Segment := ⟨header 0 .pageInformation 19,
      #[0, 0, 0, 8, 0, 0, 0, 2, 0, 0, 0, 0, 0, 0, 0, 0, 0, 0, 0]⟩
    let region : Segment := ⟨header 1 (.region .generic .immediate) 22,
      #[0, 0, 0, 8, 0, 0, 0, 1, 0, 0, 0, 0, 0, 0, 0, 0, 0, 6, 2, 0xFF, 0x12, 0x34]⟩
    let items : List StreamItem := [.segment start, .segment region]
    settings.Relaxed {} ∧
      (Document.ofItems settings none items).pages.toList.map (·.bitmap.data) = [#[0x64, 0]] ∧
      (Document.ofItems settings none items).failures = #[] ∧
      Document.ofItems {} none items = Document.ofItems settings none items := by
  intro settings header start region items
  have hrelaxed : settings.Relaxed {} := ⟨by decide, by decide⟩
  have hnone : (Document.ofItems settings none items).failures = #[] := by decide +kernel
  exact ⟨hrelaxed, by decide +kernel, hnone, (relaxing_keeps_document hrelaxed none).1 items hnone⟩

end Bilevel

import Bilevel.Proofs.Document.Visits
import Bilevel.Proofs.Document.Within
import Bilevel.Proofs.Trace.Symbol
import Bilevel.Trace.Document

/-!
# What is noted about a stream

A stream is decoded with a trace as it is without, and everything that is noted on the way is sound:
no bitmap that is made has too many pixels, whether its segment is decoded in the end or not, and
every refinement is accepted. That rests on what is known about the pages and the stored bitmaps at
every step. Arithmetic that traps gives the same documents, unless a coordinate doesn't fit.

## Main definitions

* `Assembly.events` — what is noted about an item in a given state.
* `Document.events` — what is noted about the items of a stream.

## Main results

* `Assembly.runTraced_eq` — a run with a trace.
* `Document.mem_events` — the events of a stream are those of the items to which a run comes.
* `Document.sound_of_mem_events` — all of them are sound.
* `Trapping.globals_eq`, `Trapping.decode_eq`, `Trapping.decodeFile_eq` — arithmetic that traps.
-/

namespace Bilevel

open Tracing

/-! ## Pages -/

namespace OpenPage

variable {settings : DecodeSettings} {P : Event → Prop}
  (hmade : ∀ width height, width * height ≤ settings.maxPixelCount → P (.made width height))

include hmade

theorem traces_startTraced (info : PageInfo) :
    Traces P (startTraced settings info) (start settings info) := by
  unfold startTraced start
  exact .guard fun _ => (Bitmap.traces_createTraced (hmade _ _)).bind fun _ _ => .pure _

variable {page : OpenPage} (hpage : page.Within settings.maxPixelCount)

include hpage

/-- A page grows to a size that was checked. -/
theorem traces_growTraced (height : Nat) :
    Traces P (page.growTraced settings height) (page.grow settings height) := by
  unfold growTraced grow
  split
  · exact .pure page
  · next hgrows =>
    split
    · exact .throw _
    · next hle =>
      refine .make_bind ?_ (.pure _)
      rw [Bitmap.width_extendHeight, Bitmap.height_extendHeight, hpage.width,
        Nat.max_eq_right (by omega)]
      exact hmade _ _ (Nat.not_lt.mp hle)

theorem traces_makeRoomTraced (info : RegionInfo) :
    Traces P (page.makeRoomTraced settings info) (page.makeRoom settings info) :=
  .lift_bind fun _ _ => .lift_bind fun bottom _ => traces_growTraced hmade hpage bottom

theorem traces_drawTraced (region : Region) :
    Traces P (page.drawTraced settings region) (page.draw settings region) :=
  (traces_makeRoomTraced hmade hpage region.info).bind fun _ _ => .pure _

end OpenPage

/-! ## Segments -/

namespace Assembly

variable {settings : DecodeSettings} {shared : Option Store} {a : Assembly} {segment : Segment}

section

variable {P : Event → Prop}
  (hmade : ∀ width height, width * height ≤ settings.maxPixelCount → P (.made width height))

include hmade

theorem traces_startPageTraced (segment : Segment) :
    Traces P (a.startPageTraced settings segment) (a.startPage settings segment) := by
  unfold startPageTraced startPage
  refine .guard fun _ => .lift_bind fun _ _ => ?_
  exact (OpenPage.traces_startTraced hmade _).bind fun _ _ => .pure _

variable (ha : a.PagesWithin settings.maxPixelCount)

include ha

theorem traces_placeTraced (header : SegmentHeader) (use : RegionUse) (region : Region) :
    Traces P (a.placeTraced settings header use region) (a.place settings header use region) := by
  unfold placeTraced place
  split
  · exact .pure _
  · refine .lift_bind fun page hpage => ?_
    have hwithin := ha.openPages _ _ (page_eq_ok.mp hpage)
    exact (OpenPage.traces_drawTraced hmade hwithin region).bind fun _ _ => .pure _

theorem traces_endStripeTraced (segment : Segment) :
    Traces P (a.endStripeTraced settings segment) (a.endStripe settings segment) := by
  refine .lift_bind fun _ _ => .lift_bind fun page hpage => .lift_bind fun height _ => ?_
  have hwithin := ha.openPages _ _ (page_eq_ok.mp hpage)
  exact (OpenPage.traces_growTraced hmade hwithin height).bind fun _ _ => .pure _

theorem traces_referenceTraced (shared : Option Store) (segment : Segment) :
    Traces P (a.referenceTraced settings shared segment) (a.reference settings shared segment) := by
  refine .lift_bind fun ⟨info, _⟩ _ => ?_
  dsimp only
  cases segment.header.referred with
  | cons number rest =>
    refine .lift_bind fun stored _ => ?_
    cases stored with
    | region region => exact .pure _
    | dictionary dictionary => exact .throw _
    | table table => exact .throw _
  | nil =>
    refine .lift_bind fun page hpage => ?_
    have hwithin := ha.openPages _ _ (page_eq_ok.mp hpage)
    refine (OpenPage.traces_makeRoomTraced hmade hwithin info).bind fun page _ => ?_
    exact (page.bitmap.traces_cropTraced (hmade _ _) info.x info.y).bind fun _ _ => .pure _

end

variable (ha : a.Within settings.maxPixelCount)
  (hshared : ∀ store ∈ shared, store.All (Stored.Within settings.maxPixelCount))

include ha hshared

/-- The symbols that a segment gets from others. -/
theorem Within.gather {inputs : SymbolInputs}
    (h : SymbolInputs.gather (a.stores shared) segment.header.referred = .ok inputs) :
    Symbol.AllWithin settings.maxPixelCount inputs.symbols := by
  intro symbol hsymbol
  obtain ⟨dictionary, hdictionary, hmem⟩ :=
    (SymbolInputs.from_gather (all_stores hshared ha.store) h).symbols symbol hsymbol
  exact hdictionary symbol hmem

theorem traces_decodeTextTraced (use : RegionUse) :
    Traces (Event.Sound settings.maxPixelCount)
      (a.decodeTextTraced settings shared segment use)
      (a.decodeText settings shared segment use) := by
  refine .lift_bind fun inputs hinputs => ?_
  refine (Text.traces_decodeRegionTraced _ _ (ha.gather hshared hinputs) _).bind fun decoded _ => ?_
  refine .lift_bind fun b hlayout => ?_
  have hb := (noted_of_addLayout hlayout).pagesWithin ha.toPagesWithin
  exact traces_placeTraced (fun _ _ => id) hb _ use _

theorem traces_addDictionaryTraced :
    Traces (Event.Sound settings.maxPixelCount)
      (a.addDictionaryTraced settings shared segment)
      (a.addDictionary settings shared segment) := by
  refine .lift_bind fun inputs hinputs => ?_
  exact (Symbol.traces_decodeTraced _ _ (ha.gather hshared hinputs) _ _).bind fun _ _ => .pure _

/-- The reference of a region has the place of the region. -/
theorem traces_decodeRefinementTraced (use : RegionUse) :
    Traces (fun e => e.Sound settings.maxPixelCount ∧ e.Still)
      (a.decodeRefinementTraced settings shared segment use)
      (a.decodeRefinement settings shared segment use) := by
  have hmade : ∀ width height, width * height ≤ settings.maxPixelCount →
      (Event.made width height).Sound settings.maxPixelCount ∧ (Event.made width height).Still :=
    fun _ _ h => ⟨h, trivial⟩
  refine (traces_referenceTraced hmade ha.toPagesWithin shared segment).bind ?_
  intro ⟨reference, b⟩ hreference
  obtain ⟨hwithin, hb⟩ := ha.reference hshared hreference
  refine (Refinement.traces_decodeRegionTraced _ _ hwithin).bind fun region _ => ?_
  exact traces_placeTraced hmade hb.toPagesWithin _ use region

theorem traces_decodeRegionTraced (use : RegionUse) (coding : RegionCoding) :
    Traces (Event.Sound settings.maxPixelCount)
      (a.decodeRegionTraced settings shared segment use coding)
      (a.decodeRegion settings shared segment use coding) := by
  cases coding with
  | halftone => exact .throw _
  | generic =>
    refine .lift_bind fun _ _ => ?_
    refine (Generic.traces_decodeRegionTraced _ _ _ fun _ _ => id).bind fun region _ => ?_
    exact traces_placeTraced (fun _ _ => id) ha.toPagesWithin _ use region
  | text => exact .lift_bind fun _ _ => traces_decodeTextTraced ha hshared use
  | refinement =>
    exact .lift_bind fun _ _ => (traces_decodeRefinementTraced ha hshared use).mono fun _ => And.left

/-- A segment is decoded as it is without a trace. -/
theorem traces_decodeTraced :
    Traces (Event.Sound settings.maxPixelCount) (a.decodeTraced settings shared segment)
      (a.decode settings shared segment) := by
  unfold decodeTraced
  split
  · next hkind =>
    rw [decode, hkind]
    exact traces_startPageTraced (fun _ _ => id) segment
  · next hkind =>
    rw [decode, hkind]
    exact traces_endStripeTraced (fun _ _ => id) ha.toPagesWithin segment
  · next hkind =>
    rw [decode, hkind]
    exact traces_addDictionaryTraced ha hshared
  · next coding use hkind =>
    rw [decode, hkind]
    exact traces_decodeRegionTraced ha hshared use coding
  · exact .lift _

/-! ## Items -/

/-- What is noted about an item. Nothing is, if it is no segment or a segment that is passed
over. -/
def events (settings : DecodeSettings) (shared : Option Store) (a : Assembly) :
    StreamItem → Array Event
  | .segment segment =>
    if a.passesOver segment.header.page then #[]
    else Tracing.events (a.decodeTraced settings shared segment)
  | _ => #[]

omit ha hshared in
theorem mem_events_segment {e : Event} : e ∈ a.events settings shared (.segment segment) ↔
    a.passesOver segment.header.page = false ∧
      e ∈ Tracing.events (a.decodeTraced settings shared segment) := by
  change e ∈ (if a.passesOver segment.header.page then #[]
    else Tracing.events (a.decodeTraced settings shared segment)) ↔ _
  cases a.passesOver segment.header.page with
  | true => simp
  | false => simp

theorem processTraced_eq (segment : Segment) (trace : Array Event) :
    a.processTraced settings shared segment trace =
      (a.process settings shared segment, trace ++ a.events settings shared (.segment segment)) := by
  unfold processTraced process events
  dsimp only
  split
  · rfl
  · rw [(traces_decodeTraced ha hshared).run]
    cases a.decode settings shared segment with
    | ok b => rfl
    | error e => rfl

/-- All that is noted is sound. -/
theorem sound_of_mem_events {item : StreamItem} {e : Event}
    (he : e ∈ a.events settings shared item) : e.Sound settings.maxPixelCount := by
  cases item with
  | segment segment =>
    exact (traces_decodeTraced ha hshared).events e (mem_events_segment.mp he).2
  | invalid header error => exact absurd he (Array.not_mem_empty e)
  | broken header error => exact absurd he (Array.not_mem_empty e)

/-- The references of refinement regions have the places of the regions. -/
theorem still_of_mem_events {use : RegionUse}
    (hkind : segment.header.kind = .region .refinement use) {e : Event}
    (he : e ∈ a.events settings shared (.segment segment)) : e.Still := by
  have hdecode : Traces Event.Still (a.decodeTraced settings shared segment)
      (a.decode settings shared segment) := by
    unfold decodeTraced decode
    rw [hkind]
    refine .lift_bind fun _ _ => ?_
    exact (traces_decodeRefinementTraced ha hshared use).mono fun _ => And.right
  exact hdecode.events e (mem_events_segment.mp he).2

theorem runTraced_segment (segment : Segment) (items : List StreamItem) (trace : Array Event) :
    runTraced settings shared a (.segment segment :: items) trace =
      if a.ends segment then ((a.process settings shared segment).endAll,
        trace ++ a.events settings shared (.segment segment))
      else runTraced settings shared (a.process settings shared segment) items
        (trace ++ a.events settings shared (.segment segment)) := by
  have hnext : runTraced settings shared a (.segment segment :: items) trace =
      let next := a.processTraced settings shared segment trace
      if a.ends segment then (next.1.endAll, next.2)
      else runTraced settings shared next.1 items next.2 := by
    rw [runTraced]
    dsimp only
    split
    · rfl
    · rfl
  rw [hnext, processTraced_eq ha hshared]

/-- A run that goes on after an item. -/
theorem runTraced_of_goesOn {item : StreamItem} (hon : a.goesOn item = true)
    (items : List StreamItem) (trace : Array Event) :
    runTraced settings shared a (item :: items) trace =
      runTraced settings shared (a.take settings shared item) items
        (trace ++ a.events settings shared item) := by
  cases item with
  | segment segment =>
    have hends : a.ends segment = false := by simpa [goesOn] using hon
    rw [runTraced_segment ha hshared, hends]
    rfl
  | invalid header error => rfl
  | broken header error => cases hon

/-- A run that ends with an item. -/
theorem runTraced_of_not_goesOn {item : StreamItem} (hon : a.goesOn item = false)
    (items : List StreamItem) (trace : Array Event) :
    runTraced settings shared a (item :: items) trace =
      (run settings shared a (item :: items), trace ++ a.events settings shared item) := by
  cases item with
  | segment segment =>
    have hends : a.ends segment = true := by simpa [goesOn] using hon
    rw [runTraced_segment ha hshared, run, hends]
    rfl
  | invalid header error => cases hon
  | broken header error => rfl

/-- A run comes to the same with a trace. What is noted about its items follows what was noted
before, in their order. -/
theorem runTraced_eq (items : List StreamItem) (trace : Array Event) :
    runTraced settings shared a items trace =
      (run settings shared a items, trace ++
        ((visits settings shared a items).flatMap
          fun v => (v.state.events settings shared v.item).toList).toArray) := by
  induction items generalizing a trace with
  | nil => exact congrArg (Prod.mk _) Array.append_empty.symm
  | cons item items ih =>
    rw [visits]
    cases hon : a.goesOn item with
    | true =>
      rw [runTraced_of_goesOn ha hshared hon, ih (ha.take hshared item), run_of_goesOn hon,
        if_pos rfl, List.flatMap_cons, ← List.append_toArray, Array.toArray_toList,
        Array.append_assoc]
    | false =>
      rw [runTraced_of_not_goesOn ha hshared hon]
      simp

end Assembly

/-! ## Streams -/

namespace Document

/-- What is noted about the items of a stream. -/
def events (settings : DecodeSettings) (globals : Option Globals) (items : List StreamItem) :
    Array Event :=
  (Assembly.runTraced settings (globals.map (·.store)) {} items #[]).2

variable {settings : DecodeSettings} {globals : Option Globals} {items : List StreamItem}
  (hglobals : ∀ g ∈ globals, ∃ data, g = Globals.ofBytes settings data)

include hglobals

theorem all_shared :
    ∀ store ∈ globals.map (·.store), store.All (Stored.Within settings.maxPixelCount) := by
  intro store hstore
  obtain ⟨g, hg, rfl⟩ := Option.mem_map.mp hstore
  obtain ⟨data, rfl⟩ := hglobals g hg
  exact Globals.all_ofBytes (Stored.kept_within settings) data

/-- Whenever a run comes to an item, all bitmaps are within the limit. -/
theorem within_visits {v : Assembly.Visit}
    (hv : v ∈ Assembly.visits settings (globals.map (·.store)) {} items) :
    v.state.Within settings.maxPixelCount :=
  Assembly.forall_visits (Assembly.within_empty _)
    (fun v _ _ h => h.take (all_shared hglobals) v.item) v hv

/-- The events of a stream are those of the items to which a run comes. -/
theorem mem_events {e : Event} : e ∈ events settings globals items ↔
    ∃ v ∈ Assembly.visits settings (globals.map (·.store)) {} items,
      e ∈ v.state.events settings (globals.map (·.store)) v.item := by
  unfold events
  rw [Assembly.runTraced_eq (Assembly.within_empty _) (all_shared hglobals)]
  simp

/-- All that is noted about a stream is sound. -/
theorem sound_of_mem_events {e : Event} (he : e ∈ events settings globals items) :
    e.Sound settings.maxPixelCount := by
  obtain ⟨v, hv, he⟩ := (mem_events hglobals).mp he
  exact Assembly.sound_of_mem_events (within_visits hglobals hv) (all_shared hglobals) he

end Document

/-! ## Arithmetic that traps -/

namespace Trapping

/-- A run with arithmetic that traps comes to nothing just when a coordinate doesn't fit. -/
theorem run_eq {settings : DecodeSettings} {globals : Option Globals}
    (hglobals : ∀ g ∈ globals, ∃ data, g = Globals.ofBytes settings data)
    (items : List StreamItem) : run settings (globals.map (·.store)) items =
      if (Document.events settings globals items).any Event.overflows then none
      else some (Assembly.run settings (globals.map (·.store)) {} items) := by
  unfold run Document.events
  rw [Assembly.runTraced_eq (Assembly.within_empty _) (Document.all_shared hglobals)]

theorem globals_eq (settings : DecodeSettings) (data : Bytes) : globals settings data =
    if (Document.events settings none (Stream.embedded data)).any Event.overflows then none
    else some (Globals.ofBytes settings data) := by
  have hrun : run settings none (Stream.embedded data) =
      if (Document.events settings none (Stream.embedded data)).any Event.overflows then none
      else some (Assembly.run settings none {} (Stream.embedded data)) :=
    @run_eq settings none (fun _ h => by cases h) _
  unfold globals
  rw [hrun]
  split
  · rfl
  · rfl

section

variable {settings : DecodeSettings} {globals : Option Globals}
  (hglobals : ∀ g ∈ globals, ∃ data, g = Globals.ofBytes settings data)

include hglobals

/-- Arithmetic that traps gives no document just when a coordinate doesn't fit. Otherwise it gives
the same one. -/
theorem document_eq (items : List StreamItem) : document settings globals items =
    if (Document.events settings globals items).any Event.overflows then none
    else some (Document.ofItems settings globals items) := by
  unfold document
  rw [run_eq hglobals]
  split
  · rfl
  · rfl

theorem decode_eq (data : Bytes) : decode settings globals data =
    if (Document.events settings globals (Stream.embedded data)).any Event.overflows then none
    else some (Bilevel.decode settings globals data) := by
  unfold decode Bilevel.decode
  rw [document_eq hglobals]
  split
  · rfl
  · rfl

end

/-- A file that can't be cut into segments is refused in either case. -/
theorem decodeFile_eq (settings : DecodeSettings) (data : Bytes) : decodeFile settings data =
    match Stream.file data with
    | .ok items =>
      if (Document.events settings none items).any Event.overflows then none
      else some (Bilevel.decodeFile settings data)
    | .error e => some (.error e) := by
  unfold decodeFile Bilevel.decodeFile
  cases Stream.file data with
  | error e => rfl
  | ok items =>
    dsimp only
    rw [document_eq fun _ h => by cases h]
    split
    · rfl
    · rfl

end Trapping
end Bilevel

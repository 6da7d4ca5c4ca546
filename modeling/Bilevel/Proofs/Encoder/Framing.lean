import Bilevel.Proofs.Encoder.Effects
import Bilevel.Proofs.Segment.Tiling

/-!
# Framing of segments

Whatever calls are made to an encoder, and whichever of them are refused, it writes segments with
consecutive numbers, each of which refers to earlier ones only. Pages are numbered from 1 on, each
from its start to its end, and all segments from one to the other belong to the page. There is
always a number left for the end of the open page.

## Main definitions

* `Call.writes`, `Session.writes` — the segments that calls write.
* `Paged` — segments in which every page that starts also ends.
* `Advance` — an encoder before and after segments.

## Main results

* `Effect.advance`, `Session.advance_run` — a call, and any number of calls.
* `Session.embedded_finish` — the stream of an encoder holds what its calls wrote.
-/

namespace Bilevel.Encoder

/-! ## Pages -/

/-- Segments of a stream in which some pages have begun, the last of which is open or not. Pages are
numbered in order. What stands between the start and the end of a page belongs to it, and everything
else to none. -/
inductive Paged : (inside : Bool) → (pages : Nat) → List Segment → Prop
  | done {pages : Nat} : Paged false pages []
  | start {pages : Nat} {s : Segment} {segments : List Segment}
      (kind : s.header.kind = .pageInformation) (page : s.header.page = pages + 1)
      (rest : Paged true (pages + 1) segments) : Paged false pages (s :: segments)
  | between {inside : Bool} {pages : Nat} {s : Segment} {segments : List Segment}
      (kind : s.header.kind ≠ .pageInformation ∧ s.header.kind ≠ .endOfPage)
      (page : s.header.page = if inside then pages else 0)
      (rest : Paged inside pages segments) : Paged inside pages (s :: segments)
  | finish {pages : Nat} {s : Segment} {segments : List Segment}
      (kind : s.header.kind = .endOfPage) (page : s.header.page = pages)
      (rest : Paged false pages segments) : Paged true pages (s :: segments)

/-- An encoder before and after some segments. They have the next numbers, and if more segments
complete the pages that are there then, they do so behind these. -/
structure Advance (e after : Encoder) (new : List Segment) : Prop where
  numbered : after.Numbered
  written : after.written = e.written ++ Stream.bytesOf new
  nextSegment : after.nextSegment = e.nextSegment + new.length
  numbers : new.map (·.header.number) = List.range' e.nextSegment new.length
  coherent : ∀ t ∈ new, t.Coherent ∧ t.header.kind ≠ .endOfFile
  paged : ∀ more, Paged after.page.isSome after.pageCount more →
    Paged e.page.isSome e.pageCount (new ++ more)

namespace Advance

variable {e middle after : Encoder} {new more : List Segment} {segment : Segment}

theorem refl (h : e.Numbered) : Advance e e [] where
  numbered := h
  written := (Array.append_empty).symm
  nextSegment := rfl
  numbers := rfl
  coherent _ ht := absurd ht List.not_mem_nil
  paged _ hmore := hmore

theorem trans (h : Advance e middle new) (h' : Advance middle after more) :
    Advance e after (new ++ more) where
  numbered := h'.numbered
  written := by
    rw [h'.written, h.written, Stream.bytesOf_append, Array.append_assoc]
  nextSegment := by
    rw [h'.nextSegment, h.nextSegment, List.length_append, Nat.add_assoc]
  numbers := by
    rw [List.map_append, h.numbers, h'.numbers, h.nextSegment, List.length_append,
      List.range'_append_1]
  coherent t ht := (List.mem_append.mp ht).elim (h.coherent t) (h'.coherent t)
  paged rest hrest := by
    rw [List.append_assoc]
    exact h.paged _ (h'.paged rest hrest)

/-- One segment. -/
theorem one (hnumbered : after.Numbered) (hwritten : after.written = e.written ++ segment.bytes)
    (hnext : after.nextSegment = e.nextSegment + 1)
    (hnumber : segment.header.number = e.nextSegment) (hcoherent : segment.Coherent) (hkind : segment.header.kind ≠ .endOfFile)
    (hpaged : ∀ more, Paged after.page.isSome after.pageCount more →
      Paged e.page.isSome e.pageCount (segment :: more)) : Advance e after [segment] where
  numbered := hnumbered
  written := by
    rw [hwritten, Stream.bytesOf_cons, Stream.bytesOf_nil, Array.append_empty]
  nextSegment := hnext
  numbers := by
    rw [List.map_singleton, hnumber, List.length_singleton, List.range'_one]
  coherent t ht := List.mem_singleton.mp ht ▸ ⟨hcoherent, hkind⟩
  paged := hpaged

/-- The end of the open page. -/
theorem ended (h : e.Numbered) {canvas : Canvas} (hpage : e.page = some canvas)
    (hrefuses : ¬e.closed.Refuses .endOfPage [] #[]) :
    Advance e (e.closed.append (e.closed.endSegment canvas)) [e.closed.endSegment canvas] := by
  have hnumber := h.number canvas hpage
  have hpos := h.number_pos canvas hpage
  have hcoherent : (e.closed.endSegment canvas).Coherent :=
    coherent_segmentOf canvas.number hrefuses (h.canvas_number_le hpage) fun _ => hpos.ne'
  refine one (h.ended hpage) rfl rfl rfl hcoherent (by simp [endSegment, segmentOf])
    fun more hmore => ?_
  rw [append_page, append_pageCount, closed_page, closed_pageCount] at hmore
  rw [hpage]
  exact .finish rfl hnumber hmore

/-- The start of a page while none is open. -/
theorem opened {width height : Nat} (hpage : e.page = none) (hcount : e.pageCount < 0xFFFFFFFF)
    (hrefuses : ¬e.Refuses .pageInformation [] (newPage width height).bytes) :
    Advance e (e.opened width height) [e.pageSegment width height] := by
  have hcoherent : (e.pageSegment width height).Coherent :=
    coherent_segmentOf (e.pageCount + 1) hrefuses hcount fun _ => Nat.succ_ne_zero _
  refine one (.opened hcount hrefuses) rfl rfl rfl hcoherent (by simp [pageSegment, segmentOf])
    fun more hmore => ?_
  rw [hpage]
  exact .start rfl rfl hmore

/-- Any other segment. It belongs to the open page, and what it draws there changes only the
bitmap. -/
theorem append {kind : SegmentKind} {referred : List Nat} {data : Bytes} {page : Option Canvas}
    (h : e.Numbered) (hrefuses : ¬e.Refuses kind referred data)
    (hkind : kind ≠ .pageInformation ∧ kind ≠ .endOfPage ∧ kind ≠ .endOfFile)
    (hbound : kind.pageBound = true → e.page.isSome)
    (hpage : page.map (·.number) = e.page.map (·.number)) :
    Advance e { e.append (e.segmentOf kind e.pageNumber referred data) with page := page }
      [e.segmentOf kind e.pageNumber referred data] := by
  have hsome : page.isSome = e.page.isSome := by
    rw [← Option.isSome_map (f := (·.number)), hpage, Option.isSome_map]
  have hnumber : e.pageNumber = if e.page.isSome then e.pageCount else 0 := by
    cases hopen : e.page with
    | none => exact congrArg (fun o : Option Canvas => (o.map (·.number)).getD 0) hopen
    | some canvas => exact (pageNumber_eq hopen).trans (h.number canvas hopen)
  refine one (h.append hrefuses hkind.2.1 hpage) rfl rfl rfl ?_ hkind.2.2 fun more hmore => ?_
  · refine coherent_segmentOf _ hrefuses h.pageNumber_le fun hkind => ?_
    obtain ⟨canvas, hcanvas⟩ := Option.isSome_iff_exists.mp (hbound hkind)
    rw [pageNumber_eq hcanvas]
    exact (h.number_pos canvas hcanvas).ne'
  · exact .between ⟨hkind.1, hkind.2.1⟩ hnumber (hsome ▸ hmore)

/-- A region that was written and drawn. -/
theorem drew (h : e.Numbered) {coding : RegionCoding} {referred : List Nat} {data : Bytes}
    {bitmap : Bitmap} {x y : Nat} {operator : CombinationOperator} {canvas : Canvas}
    (hdrew : Drew coding referred data bitmap x y operator canvas e after) :
    Advance e after
      [e.segmentOf (.region coding .immediateLossless) canvas.number referred data] := by
  obtain ⟨hpage, hrefuses, rfl⟩ := hdrew
  have hnumber := pageNumber_eq hpage
  have hsame : (some { canvas with
      bitmap := canvas.bitmap.combine bitmap x y operator }).map (·.number) =
        e.page.map (·.number) := by
    rw [hpage]
    rfl
  have hadvance := append h hrefuses (by simp) (fun _ => hpage ▸ rfl) hsame
  rwa [hnumber] at hadvance

end Advance

/-- What a call makes of an encoder. -/
theorem Effect.advance {s s' : Session} {call : Call} {new : List Segment}
    (heffect : Effect s call s' new) (h : s.encoder.Numbered) :
    Advance s.encoder s'.encoder new := by
  induction heffect with
  | refused | empty | noPage => exact .refl h
  | closed _ ih => exact ih
  | ended hpage hrefuses => exact .ended h hpage hrefuses
  | opened _ hpage _ hcount hrefuses ih => exact ih.trans (.opened hpage hcount hrefuses)
  | generic _ _ _ hdrew | refinement _ _ hdrew | text _ _ _ hdrew => exact .drew h hdrew
  | dictionary _ hrefuses | codeTable _ _ hrefuses =>
    exact .append h hrefuses (by simp) (by simp [SegmentKind.pageBound]) rfl

namespace Session

/-- The segments that calls write, one after the other. -/
def writes (s : Session) : List Call → List Segment
  | [] => []
  | call :: calls => call.writes s.encoder ++ (s.step call).writes calls

/-- What any number of calls make of an encoder. -/
theorem advance_run {s : Session} (h : s.encoder.Numbered) (calls : List Call) :
    Advance s.encoder (s.run calls).encoder (s.writes calls) := by
  induction calls generalizing s with
  | nil => exact .refl h
  | cons call calls ih =>
    have hstep := (effect h call).advance h
    exact hstep.trans (ih hstep.numbered)

/-- What is written by calls, and by more calls behind them. -/
theorem writes_append (s : Session) (calls more : List Call) :
    s.writes (calls ++ more) = s.writes calls ++ (s.run calls).writes more := by
  induction calls generalizing s with
  | nil => rfl
  | cons call calls ih =>
    rw [List.cons_append, writes, ih, writes, List.append_assoc]
    rfl

/-- The end of the open page, behind other calls. -/
theorem run_concat_endPage (s : Session) (calls : List Call) :
    (s.run (calls ++ [.endPage])).encoder = (Encoder.endPage.run (s.run calls).encoder).2 := by
  unfold run
  rw [List.foldl_append, List.foldl_cons, List.foldl_nil, step_endPage]

/-- Whatever calls are made, and even if some are refused, the stream holds the segments that they
wrote and the end of the last page, as long as the references of every segment can be counted in 29
bits. The segments have consecutive numbers and refer to earlier ones only. Pages are numbered from
1 on and every one of them ends, since a number is left for its end as long as it is open. -/
theorem embedded_finish {first : Nat} (hfirst : first ≤ 0xFFFFFFFF) (calls : List Call)
    (hdata : ∀ t ∈ (start first).writes (calls ++ [.endPage]), t.data.size < 0xFFFFFFFF) :
    let e := ((start first).run calls).encoder
    let segments := (start first).writes (calls ++ [.endPage])
    (Stream.embedded e.finish = segments.map .segment ↔
      ∀ t ∈ segments, t.header.referred.length < 2 ^ 29) ∧
    (segments.map (·.header.number) = List.range' first segments.length ∧
      e.nextSegment = first + ((start first).writes calls).length) ∧
    (∀ t ∈ segments, t.header.dataLength = some t.data.size ∧
      ∀ n ∈ t.header.referred, n < t.header.number) ∧
    Paged false 0 segments ∧
    ∀ canvas ∈ e.page, e.nextSegment < maxNumber ∧
      ((writeSegment .endOfPage canvas.number [] #[]).run e.closed).1 = .ok e.nextSegment := by
  intro e segments
  have hstart : (start first).encoder.Numbered := numbered_startingAt hfirst
  have hcalls : Advance (startingAt first) e ((start first).writes calls) :=
    advance_run hstart calls
  have hall := advance_run hstart (calls ++ [Call.endPage])
  rw [run_concat_endPage] at hall
  have hfinish : e.finish = Stream.bytesOf segments :=
    hall.written.trans Array.empty_append
  have hpaged := hall.paged []
  rw [page_endPage, List.append_nil] at hpaged
  refine ⟨⟨fun hembedded t ht => ?_, fun hcount => ?_⟩, ⟨hall.numbers, hcalls.nextSegment⟩,
    fun t ht => ?_, hpaged .done, fun canvas hcanvas => ?_⟩
  · refine Stream.length_referred_lt (d := e.finish) ?_
    rw [hembedded]
    exact List.mem_map_of_mem ht
  · rw [hfinish]
    exact Stream.embedded_bytesOf
      (fun t ht => (hall.coherent t ht).1.findable (hdata t ht) (hcount t ht))
      fun t ht => (hall.coherent t ht).2
  · have hcoherent := (hall.coherent t ht).1
    exact ⟨hcoherent.length, (SegmentHeader.validate_eq_ok_iff.mp hcoherent.valid).1⟩
  · have hroom := hcalls.numbered.room (hcanvas ▸ rfl)
    have hwrite := e.closed.run_writeSegment .endOfPage canvas.number [] #[]
    rw [if_neg (not_refuses_endOfPage hroom)] at hwrite
    rw [hwrite]
    exact ⟨hroom, rfl⟩

/-- The last numbers: a second page can't start any more, but the first one ends, and a table takes
the number that is left. -/
theorem embedded_finish_lastNumbers :
    let calls : List Call := [.startPage 1 1,
      .generic (.blank 1 1) 0 0 { template := .template3, skipsRows := false }, .startPage 1 1,
      .codeTable ⟨0, [⟨1, 1⟩], 2, 2, none⟩, .codeTable ⟨0, [⟨1, 1⟩], 2, 2, none⟩]
    let segments := (start 0xFFFFFFFB).writes (calls ++ [.endPage])
    segments.map (fun t => (t.header.number, t.header.kind, t.header.page)) =
        [(0xFFFFFFFB, .pageInformation, 1), (0xFFFFFFFC, .region .generic .immediateLossless, 1),
          (0xFFFFFFFD, .endOfPage, 1), (0xFFFFFFFE, .tables, 0)] ∧
      (∀ t ∈ segments, t.data.size < 0xFFFFFFFF) ∧
      Stream.embedded ((start 0xFFFFFFFB).run calls).encoder.finish = segments.map .segment := by
  intro calls segments
  have hsegments : segments.map (fun t => (t.header.number, t.header.kind, t.header.page)) =
      [(0xFFFFFFFB, .pageInformation, 1), (0xFFFFFFFC, .region .generic .immediateLossless, 1),
        (0xFFFFFFFD, .endOfPage, 1), (0xFFFFFFFE, .tables, 0)] := by
    decide +kernel
  have hdata : ∀ t ∈ segments, t.data.size < 0xFFFFFFFF := by decide +kernel
  have hcount : ∀ t ∈ segments, t.header.referred.length < 2 ^ 29 := by decide +kernel
  exact ⟨hsegments, hdata, (embedded_finish (by decide) calls hdata).1.mpr hcount⟩

/-! ### Many references -/

/-- Two segments: the start of a page of one pixel, and a dictionary without symbols. -/
def prelude : List Call := [.startPage 1 1, .dictionary [] .codes none]

/-- A page with a text region that uses one dictionary again and again. -/
def repeated (count : Nat) : List Call :=
  prelude ++ [.text (List.replicate count ⟨1, #[], [], []⟩) [] ⟨1, 1, 0, 0, .or⟩ 0]

theorem symbolsOf_replicate (count : Nat) :
    symbolsOf (List.replicate count ⟨1, #[], [], []⟩) = #[] := by
  unfold symbolsOf
  induction count with
  | zero => rfl
  | succ count ih => simpa [List.replicate_succ] using ih

/-- What such a session writes: no data is long, and one segment has that many references. -/
theorem writes_repeated (count : Nat) :
    let segments := (start 0).writes (repeated count ++ [.endPage])
    (∀ t ∈ segments, t.data.size < 0xFFFFFFFF) ∧ ∃ t ∈ segments, t.header.referred.length = count := by
  let e := ((start 0).run prelude).encoder
  let call : Call := .text (List.replicate count ⟨1, #[], [], []⟩) [] ⟨1, 1, 0, 0, .or⟩ 0
  let data : Bytes :=
    #[0, 0, 0, 1, 0, 0, 0, 1, 0, 0, 0, 0, 0, 0, 0, 0, 0, 0, 16, 0, 0, 0, 0, 159, 255, 172]
  have hdata : Text.encodeRegion ⟨1, 1, 0, 0, .or⟩
      (symbolsOf (List.replicate count ⟨1, #[], [], []⟩)) [] 0 = .ok data := by
    rw [symbolsOf_replicate]
    decide +kernel
  obtain ⟨hpage, hnext, hprelude⟩ : e.page = some ⟨1, .blank 1 1⟩ ∧ e.nextSegment = 2 ∧
      ∀ t ∈ (start 0).writes prelude, t.data.size < 0xFFFFFFFF := by
    decide +kernel
  have hreferred : (List.replicate count (⟨1, #[], [], []⟩ : WrittenDictionary)).map (·.segment) =
      List.replicate count 1 := List.map_replicate
  have hrefuses : ¬e.Refuses (.region .text .immediateLossless) (List.replicate count 1) data := by
    unfold Refuses
    rw [hnext]
    simp [numbersNeeded, maxNumber, hpage, data]
  have haccepted : call.accepted e = true :=
    isOk_addText hpage (by decide) hdata (hreferred ▸ hrefuses)
  have htext : call.writes e = [e.segmentOf (.region .text .immediateLossless) e.pageNumber
      (List.replicate count 1) data] := by
    have hwrites : call.writes e = if call.accepted e then
        (Text.encodeRegion ⟨1, 1, 0, 0, .or⟩ (symbolsOf (List.replicate count ⟨1, #[], [], []⟩))
          [] 0).toOption.toList.map (e.segmentOf call.kind e.pageNumber call.referred)
        else [] := rfl
    rw [hwrites, if_pos haccepted, hdata, ← hreferred]
    rfl
  have hsegments : (start 0).writes (repeated count ++ [.endPage]) =
      (start 0).writes prelude ++ (call.writes e ++
        ((((start 0).run prelude).step call).encoder.endSegments ++ [])) := by
    unfold repeated
    rw [List.append_assoc, writes_append]
    rfl
  dsimp only
  rw [hsegments, htext, List.append_nil]
  refine ⟨fun t ht => ?_, _, List.mem_append_right _ (List.mem_append_left _ List.mem_cons_self),
    List.length_replicate⟩
  rcases List.mem_append.mp ht with ht | ht
  · exact hprelude t ht
  rcases List.mem_append.mp ht with ht | ht
  · rw [List.mem_singleton.mp ht]
    exact (by decide : data.size < 0xFFFFFFFF)
  · obtain ⟨canvas, -, rfl⟩ := Option.map_eq_some_iff.mp (Option.mem_toList.mp ht)
    exact (by decide : (#[] : Bytes).size < 0xFFFFFFFF)

/-- The encoder doesn't check how many references a segment has, and they spoil a stream if their
number doesn't fit its field. -/
theorem embedded_finish_repeated :
    let calls := repeated (2 ^ 29)
    let segments := (start 0).writes (calls ++ [.endPage])
    ((start 0).run prelude).dictionaries = [⟨1, #[], [], []⟩] ∧
      (∀ t ∈ segments, t.data.size < 0xFFFFFFFF) ∧
      Stream.embedded ((start 0).run calls).encoder.finish ≠ segments.map .segment := by
  intro calls segments
  obtain ⟨hdata, t, ht, hcount⟩ := writes_repeated (2 ^ 29)
  refine ⟨by decide +kernel, hdata, fun hembedded => ?_⟩
  have hfits : t.header.referred.length < 2 ^ 29 := by
    refine Stream.length_referred_lt (d := ((start 0).run calls).encoder.finish) ?_
    rw [hembedded]
    exact List.mem_map_of_mem ht
  rw [hcount] at hfits
  exact Nat.lt_irrefl _ hfits

end Session
end Bilevel.Encoder

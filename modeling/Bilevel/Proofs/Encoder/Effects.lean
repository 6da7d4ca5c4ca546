import Bilevel.Proofs.Encoder.Session

/-!
# What calls do

A call to an encoder is refused, or it writes segments. All that is proved of sessions is derived
from the list of these effects.

## Main definitions

* `Call.accepted` — whether a call is accepted.
* `Call.writes` — the segments that a call writes.
* `Effect` — what a call makes of a session, and which segments it writes.

## Main results

* `Session.effect` — every call has an effect.
-/

namespace Bilevel.Encoder

namespace Call

/-- Whether a call is accepted. -/
def accepted (e : Encoder) : Call → Bool
  | .startPage width height => ((Encoder.startPage width height).run e).1.isOk
  | .endPage => (Encoder.endPage.run e).1.isOk
  | .generic bitmap x y options => ((addGeneric bitmap x y options).run e).1.isOk
  | .refinement bitmap x y options => ((addRefinement bitmap x y options).run e).1.isOk
  | .dictionary symbols coding exports => ((addDictionary symbols coding exports).run e).1.isOk
  | .codeTable table => ((addCodeTable table).run e).1.isOk
  | .text dictionaries instances info logStrips =>
    ((addText dictionaries instances info logStrips).run e).1.isOk

/-- The kind of the segment that a call writes. -/
def kind : Call → SegmentKind
  | .startPage .. => .pageInformation
  | .endPage => .endOfPage
  | .generic .. => .region .generic .immediateLossless
  | .refinement .. => .region .refinement .immediateLossless
  | .dictionary .. => .symbolDictionary
  | .codeTable .. => .tables
  | .text .. => .region .text .immediateLossless

/-- The segments to which this segment refers. -/
def referred : Call → List Nat
  | .text dictionaries .. => dictionaries.map (·.segment)
  | _ => []

/-- The segments that a call writes. The open page ends before a page is started, even if numbers
run out then. -/
def writes (e : Encoder) : Call → List Segment
  | .startPage width height =>
    if width = 0 ∨ height = 0 then []
    else e.endSegments ++
      if (Call.startPage width height).accepted e then
        [(Encoder.endPage.run e).2.pageSegment width height]
      else []
  | .endPage => e.endSegments
  | call =>
    if call.accepted e then
      (call.data? e).toList.map (e.segmentOf call.kind e.pageNumber call.referred)
    else []

end Call

/-- What a call makes of a session, and the segments that it writes. -/
inductive Effect (s : Session) : Call → Session → List Segment → Prop
  | refused {call : Call} (refused : call.accepted s.encoder = false) : Effect s call s []
  /-- A page without pixels isn't started. -/
  | empty {width height : Nat} : Effect s (.startPage width height) s []
  | noPage (page : s.encoder.page = none) : Effect s .endPage s []
  | ended {canvas : Canvas} (page : s.encoder.page = some canvas)
      (not_refuses : ¬s.encoder.closed.Refuses .endOfPage [] #[]) :
      Effect s .endPage ⟨s.encoder.closed.append (s.encoder.closed.endSegment canvas),
        s.dictionaries, s.ended ++ [canvas.bitmap]⟩ [s.encoder.closed.endSegment canvas]
  /-- The open page ends, but numbers run out. -/
  | closed {width height : Nat} {s' : Session} {new : List Segment}
      (end_page : Effect s .endPage s' new) : Effect s (.startPage width height) s' new
  | opened {width height : Nat} {s' : Session} {new : List Segment}
      (end_page : Effect s .endPage s' new) (page : s'.encoder.page = none)
      (pos : 0 < width ∧ 0 < height) (count : s'.encoder.pageCount < 0xFFFFFFFF)
      (not_refuses : ¬s'.encoder.Refuses .pageInformation [] (newPage width height).bytes) :
      Effect s (.startPage width height) { s' with encoder := s'.encoder.opened width height }
        (new ++ [s'.encoder.pageSegment width height])
  | generic {bitmap : Bitmap} {x y : Nat} {options : GenericOptions} {canvas : Canvas}
      {after : Encoder} (accepted : (Call.generic bitmap x y options).accepted s.encoder = true)
      (pos : bitmap.width ≠ 0 ∧ bitmap.height ≠ 0)
      (allowed : ∀ pixels ∈ options.atPixels, pixels.length = options.template.atCount ∧
        ∀ p ∈ pixels, p.causal = true)
      (drew : Drew .generic [] (genericData bitmap x y options) bitmap x y options.operator canvas
        s.encoder after) :
      Effect s (.generic bitmap x y options) { s with encoder := after }
        [s.encoder.segmentOf (.region .generic .immediateLossless) canvas.number []
          (genericData bitmap x y options)]
  | refinement {bitmap : Bitmap} {x y : Nat} {options : RefinementOptions} {canvas : Canvas}
      {after : Encoder} (accepted : (Call.refinement bitmap x y options).accepted s.encoder = true)
      (pos : bitmap.width ≠ 0 ∧ bitmap.height ≠ 0)
      (drew : Drew .refinement [] (refinementData bitmap x y options canvas) bitmap x y
        options.operator canvas s.encoder after) :
      Effect s (.refinement bitmap x y options) { s with encoder := after }
        [s.encoder.segmentOf (.region .refinement .immediateLossless) canvas.number []
          (refinementData bitmap x y options canvas)]
  | text {used : List WrittenDictionary} {instances : List Text.Placement} {info : RegionInfo}
      {logStrips : Nat} {canvas : Canvas} {data : Bytes} {after : Encoder}
      (accepted : (Call.text used instances info logStrips).accepted s.encoder = true)
      (pos : info.width ≠ 0 ∧ info.height ≠ 0)
      (encode : Text.encodeRegion info (symbolsOf used) instances logStrips = .ok data)
      (drew : Drew .text (used.map (·.segment)) data
        (drawInstances (symbolsOf used) instances (.blank info.width info.height)) info.x info.y
        info.operator canvas s.encoder after) :
      Effect s (.text used instances info logStrips) { s with encoder := after }
        [s.encoder.segmentOf (.region .text .immediateLossless) canvas.number
          (used.map (·.segment)) data]
  | dictionary {symbols : List Bitmap} {coding : Symbol.Coding} {exports : Option (List Bool)}
      {encoded : Symbol.Encoded}
      (encode : Symbol.encode symbols (flagsOf symbols exports) coding = .ok encoded)
      (not_refuses : ¬s.encoder.Refuses .symbolDictionary [] encoded.data) :
      Effect s (.dictionary symbols coding exports)
        ⟨s.encoder.append (s.encoder.segmentOf .symbolDictionary s.encoder.pageNumber []
          encoded.data),
          s.dictionaries ++ [dictionaryOf s.encoder.nextSegment symbols encoded], s.ended⟩
        [s.encoder.segmentOf .symbolDictionary s.encoder.pageNumber [] encoded.data]
  | codeTable {table : Huffman.CodeTable} {data : Bytes}
      (accepted : (Call.codeTable table).accepted s.encoder = true)
      (write : table.write = .ok data) (not_refuses : ¬s.encoder.Refuses .tables [] data) :
      Effect s (.codeTable table)
        { s with
          encoder := s.encoder.append (s.encoder.segmentOf .tables s.encoder.pageNumber [] data) }
        [s.encoder.segmentOf .tables s.encoder.pageNumber [] data]

namespace Session

variable {s : Session}

/-- A call that is accepted or refused, changes nothing but the encoder and writes one segment. -/
structure Runs {α : Type} (m : Encoding α) (s : Session) (call : Call) : Prop where
  step : s.step call = { s with encoder := (m.run s.encoder).2 }
  accepted : call.accepted s.encoder = (m.run s.encoder).1.isOk
  writes : call.writes s.encoder = if call.accepted s.encoder then
    (call.data? s.encoder).toList.map
      (s.encoder.segmentOf call.kind s.encoder.pageNumber call.referred) else []

namespace Runs

variable {α : Type} {m : Encoding α} {call : Call}

theorem refused (h : Runs m s call) (hrefused : Refused m s.encoder) :
    Effect s call (s.step call) (call.writes s.encoder) := by
  obtain ⟨error, hrun⟩ := hrefused
  have haccepted : call.accepted s.encoder = false := by
    rw [h.accepted, hrun]
    rfl
  rw [h.step, hrun, h.writes, haccepted]
  exact .refused haccepted

theorem ok (h : Runs m s call) {result : α} {after : Encoder}
    (hrun : m.run s.encoder = (.ok result, after)) {data : Bytes}
    (hdata : call.data? s.encoder = some data) :
    (s.step call = { s with encoder := after } ∧ call.accepted s.encoder = true) ∧
      call.writes s.encoder =
        [s.encoder.segmentOf call.kind s.encoder.pageNumber call.referred data] := by
  have haccepted : call.accepted s.encoder = true := by
    rw [h.accepted, hrun]
    rfl
  rw [h.step, hrun, h.writes, haccepted, hdata]
  exact ⟨⟨rfl, rfl⟩, rfl⟩

end Runs

theorem effect_endPage (h : s.encoder.Numbered) :
    Effect s .endPage (s.step .endPage) (Call.endPage.writes s.encoder) := by
  have hwrites : Call.endPage.writes s.encoder = s.encoder.endSegments := rfl
  rw [step_endPage, hwrites]
  unfold endSegments
  cases hpage : s.encoder.page with
  | none =>
    rw [run_endPage_none hpage, pageBitmap?, hpage, Option.map_none, Option.toList_none,
      List.append_nil]
    exact .noPage hpage
  | some canvas =>
    have hrefuses := not_refuses_endOfPage (h.room (hpage ▸ rfl))
    rw [run_endPage hpage, if_neg hrefuses, pageBitmap?, hpage]
    exact .ended hpage hrefuses

theorem effect_startPage (h : s.encoder.Numbered) (width height : Nat) :
    let call : Call := .startPage width height
    Effect s call (s.step call) (call.writes s.encoder) := by
  intro call
  have hend := effect_endPage h
  have hendWrites : Call.endPage.writes s.encoder = s.encoder.endSegments := rfl
  have hstep : s.step call = ⟨((startPage width height).run s.encoder).2, s.dictionaries,
      s.ended ++ closedPage s.encoder ((startPage width height).run s.encoder).2⟩ := rfl
  have haccepted : call.accepted s.encoder =
      ((startPage width height).run s.encoder).1.isOk := rfl
  have hwrites : call.writes s.encoder = if width = 0 ∨ height = 0 then []
      else s.encoder.endSegments ++ if call.accepted s.encoder then
        [(Encoder.endPage.run s.encoder).2.pageSegment width height] else [] := rfl
  have hpage := page_endPage s.encoder
  have hcount := pageCount_endPage s.encoder
  have hrun := run_startPage s.encoder width height
  rw [step_endPage, hendWrites] at hend
  dsimp only at hrun
  rw [hwrites]
  by_cases hempty : width = 0 ∨ height = 0
  · rw [if_pos hempty] at hrun ⊢
    rw [hstep, hrun, closedPage_self, List.append_nil]
    exact .empty
  rw [if_neg hempty] at hrun ⊢
  generalize (Encoder.endPage.run s.encoder).2 = between at *
  by_cases hroom : maxNumber < between.pageCount + 1 ∨
      between.Refuses .pageInformation [] (newPage width height).bytes
  · rw [if_pos hroom] at hrun
    have hrefused : call.accepted s.encoder = false := by
      rw [haccepted, hrun]
      rfl
    rw [hstep, hrun, if_neg (ne_true_of_eq_false hrefused), List.append_nil,
      closedPage_of_ne (by simp [hpage])]
    exact .closed hend
  · rw [if_neg hroom] at hrun
    obtain ⟨hlt, hrefuses⟩ := not_or.mp hroom
    have hclosed : closedPage s.encoder (between.opened width height) =
        s.encoder.pageBitmap?.toList := by
      refine closedPage_of_ne fun canvas hcanvas hnumber => ?_
      have hnext : between.pageCount + 1 = canvas.number := Option.some.inj hnumber
      have hsame := h.number canvas hcanvas
      omega
    have hpos : 0 < width ∧ 0 < height := by omega
    unfold maxNumber at hlt
    have hpages : between.pageCount < 0xFFFFFFFF := by omega
    have hok : call.accepted s.encoder = true := by
      rw [haccepted, hrun]
      rfl
    rw [hstep, hrun, if_pos hok, hclosed]
    have hopened := Effect.opened hend hpage hpos hpages hrefuses
    exact hopened

theorem effect_dictionary (s : Session) (symbols : List Bitmap) (coding : Symbol.Coding)
    (exports : Option (List Bool)) :
    let call : Call := .dictionary symbols coding exports
    Effect s call (s.step call) (call.writes s.encoder) := by
  intro call
  -- the session keeps what is known of the dictionary, so the call doesn't change the encoder only
  have hstep : s.step call = ⟨((addDictionary symbols coding exports).run s.encoder).2,
      s.dictionaries ++ ((addDictionary symbols coding exports).run s.encoder).1.toOption.toList,
      s.ended⟩ := rfl
  have haccepted : call.accepted s.encoder =
      ((addDictionary symbols coding exports).run s.encoder).1.isOk := rfl
  have hwrites : call.writes s.encoder =
      if call.accepted s.encoder then (call.data? s.encoder).toList.map
        (s.encoder.segmentOf .symbolDictionary s.encoder.pageNumber []) else [] := rfl
  rcases addDictionary_cases symbols coding exports s.encoder with ⟨error, hrun⟩ | hwritten
  · rw [hrun] at hstep haccepted
    dsimp only [Except.toOption, Option.toList_none] at hstep
    rw [List.append_nil] at hstep
    rw [hstep, hwrites, haccepted]
    exact .refused haccepted
  · obtain ⟨encoded, hencode, hrefuses, hrun⟩ := hwritten
    rw [hrun] at hstep haccepted
    have hdata : call.data? s.encoder = some encoded.data :=
      congrArg (fun r => r.toOption.map (·.data)) hencode
    rw [hstep, hwrites, haccepted, hdata]
    exact .dictionary hencode hrefuses

/-- Every call has an effect. -/
theorem effect (h : s.encoder.Numbered) (call : Call) :
    Effect s call (s.step call) (call.writes s.encoder) := by
  cases call with
  | endPage => exact effect_endPage h
  | startPage width height => exact effect_startPage h width height
  | dictionary symbols coding exports => exact effect_dictionary s symbols coding exports
  | generic bitmap x y options =>
    have hruns : Runs (addGeneric bitmap x y options) s (.generic bitmap x y options) :=
      ⟨rfl, rfl, rfl⟩
    rcases addGeneric_cases bitmap x y s.encoder options with hrefused | hwritten
    · exact hruns.refused hrefused
    · obtain ⟨canvas, after, hrun, ⟨hpos, hallowed⟩, hdrew⟩ := hwritten
      obtain ⟨⟨hstep, haccepted⟩, hwrites⟩ := hruns.ok hrun rfl
      rw [hstep, hwrites, pageNumber_eq hdrew.page]
      exact .generic haccepted hpos hallowed hdrew
  | refinement bitmap x y options =>
    have hruns : Runs (addRefinement bitmap x y options) s (.refinement bitmap x y options) :=
      ⟨rfl, rfl, rfl⟩
    rcases addRefinement_cases bitmap x y s.encoder options with hrefused | hwritten
    · exact hruns.refused hrefused
    · obtain ⟨canvas, after, hrun, hpos, hdrew⟩ := hwritten
      obtain ⟨⟨hstep, haccepted⟩, hwrites⟩ :=
        hruns.ok hrun (Option.map_eq_some_iff.mpr ⟨canvas, hdrew.page, rfl⟩)
      rw [hstep, hwrites, pageNumber_eq hdrew.page]
      exact .refinement haccepted hpos hdrew
  | text used instances info logStrips =>
    have hruns : Runs (addText used instances info logStrips) s
      (.text used instances info logStrips) := ⟨rfl, rfl, rfl⟩
    rcases addText_cases used instances info logStrips s.encoder with hrefused | hwritten
    · exact hruns.refused hrefused
    · obtain ⟨canvas, data, after, hrun, hpos, hencode, hdrew⟩ := hwritten
      obtain ⟨⟨hstep, haccepted⟩, hwrites⟩ := hruns.ok hrun (congrArg Except.toOption hencode)
      rw [hstep, hwrites, pageNumber_eq hdrew.page]
      exact .text haccepted hpos hencode hdrew
  | codeTable table =>
    have hruns : Runs (addCodeTable table) s (.codeTable table) := ⟨rfl, rfl, rfl⟩
    rcases addCodeTable_cases table s.encoder with hrefused | hwritten
    · exact hruns.refused hrefused
    · obtain ⟨data, hwrite, hrefuses, hrun⟩ := hwritten
      obtain ⟨⟨hstep, haccepted⟩, hwrites⟩ := hruns.ok hrun (congrArg Except.toOption hwrite)
      rw [hstep, hwrites]
      exact .codeTable haccepted hwrite hrefuses

end Session
end Bilevel.Encoder

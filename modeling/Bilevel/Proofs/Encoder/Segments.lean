import Bilevel.Encoder
import Bilevel.Proofs.Segment.Items
import Bilevel.Proofs.Segment.Page
import Bilevel.Proofs.Segment.Stream

/-!
# The segments that an encoder writes

A call to an encoder writes a segment or is refused. A segment that is written can be found again
in the stream, and as long as a page is open a number is left for its end.

## Main definitions

* `Segment.Coherent` — what the header of a segment says fits it.
* `Encoder.segmentOf`, `Encoder.append` — the next segment, and the encoder behind it.

## Main results

* `Encoder.run_writeSegment`, `Encoder.run_endPage`, `Encoder.run_startPage` — writing a segment,
  ending a page and starting one.
* `Encoder.coherent_segmentOf` — the header of a segment that is written says what fits it.
-/

namespace Bilevel

/-- The header of a segment has one flag for each reference and one more, says how long the data is
and doesn't contradict itself. How much there is of references and data is left open. -/
structure Segment.Coherent (s : Segment) : Prop where
  number : s.header.number ≤ 0xFFFFFFFF
  page : s.header.page ≤ 0xFFFFFFFF
  retention : s.header.retention.length = s.header.referred.length + 1
  length : s.header.dataLength = some s.data.size
  valid : s.header.validate = .ok ()

/-- A number before that of a segment fits into a reference. -/
theorem SegmentHeader.lt_referredWidth {number n : Nat} (h : n < number)
    (hnumber : number ≤ 0xFFFFFFFF) : n < 256 ^ referredWidth number := by
  unfold referredWidth
  split
  · omega
  · split <;> omega

/-- A segment with neither too many references nor too much data can be found again. -/
theorem Segment.Coherent.findable {s : Segment} (h : s.Coherent) (hdata : s.data.size < 0xFFFFFFFF)
    (hcount : s.header.referred.length < 2 ^ 29) : s.Findable := by
  have hearlier := (SegmentHeader.validate_eq_ok_iff.mp h.valid).1
  have hlength : ∀ n ∈ s.header.dataLength, n < SegmentHeader.unknownLength := fun n hn =>
    Option.some.inj (h.length.symm.trans hn) ▸ hdata
  exact ⟨⟨h.number, h.retention, hcount,
    fun n hn => SegmentHeader.lt_referredWidth (hearlier n hn) h.number, h.page, hlength⟩,
    h.length, h.valid⟩

namespace Encoder

/-! ## Calls -/

section

variable {α β : Type} {m : Encoding α} {f : α → Encoding β} {e e' : Encoder} {a : α}
  {error : EncodeError}

theorem run_bind (m : Encoding α) (f : α → Encoding β) (e : Encoder) :
    (m >>= f).run e = match m.run e with
      | (.ok a, e') => (f a).run e'
      | (.error error, e') => (.error error, e') := by
  change (match m.run e with | (r, e') => ExceptT.bindCont f r e') = _
  rcases m.run e with ⟨r, e'⟩
  cases r <;> rfl

theorem run_bind_ok (h : m.run e = (.ok a, e')) : (m >>= f).run e = (f a).run e' := by
  rw [run_bind, h]

theorem run_bind_error (h : m.run e = (.error error, e')) :
    (m >>= f).run e = (.error error, e') := by
  rw [run_bind, h]

theorem run_bind_get {g : Encoder → Encoding β} : (get >>= g).run e = (g e).run e := rfl

theorem run_bind_modify {change : Encoder → Encoder} {g : PUnit → Encoding β} :
    (modify change >>= g).run e = (g ⟨⟩).run (change e) := rfl

theorem run_bind_except {r : Except EncodeError α} (h : r = .ok a) :
    ((ExceptT.mk (pure r) : Encoding α) >>= f).run e = (f a).run e := by
  rw [h]
  rfl

theorem run_bind_except_error {r : Except EncodeError α} (h : r = .error error) :
    ((ExceptT.mk (pure r) : Encoding α) >>= f).run e = (.error error, e) := by
  rw [h]
  rfl

theorem run_tryCatch_ok {handler : EncodeError → Encoding α} (h : m.run e = (.ok a, e')) :
    (tryCatch m handler).run e = (.ok a, e') := by
  simp only [tryCatch, tryCatchThe, MonadExceptOf.tryCatch, ExceptT.tryCatch, ExceptT.run,
    ExceptT.mk, bind, StateT.bind] at h ⊢
  rw [h]
  rfl

theorem run_tryCatch_error {handler : EncodeError → Encoding α}
    (h : m.run e = (.error error, e')) {r : Except EncodeError α × Encoder}
    (h' : (handler error).run e' = r) : (tryCatch m handler).run e = r := by
  simp only [tryCatch, tryCatchThe, MonadExceptOf.tryCatch, ExceptT.tryCatch, ExceptT.run,
    ExceptT.mk, bind, StateT.bind] at h ⊢
  rw [h]
  exact h'

/-- A call is refused and leaves the encoder as it was. -/
def Refused (m : Encoding α) (e : Encoder) : Prop := ∃ error, m.run e = (.error error, e)

theorem refused_bind (h : Refused m e) : Refused (m >>= f) e :=
  h.imp fun _ => run_bind_error

theorem refused_congr {m' : Encoding α} (h : m.run e = m'.run e) : Refused m e ↔ Refused m' e := by
  unfold Refused
  rw [h]

theorem refused_bind_iff (h : m.run e = (.ok a, e)) : Refused (m >>= f) e ↔ Refused (f a) e :=
  refused_congr (run_bind_ok h)

end

/-! ## Segments -/

section

variable (e : Encoder) (kind : SegmentKind) (page : Nat) (referred : List Nat) (data : Bytes)

/-- The segment that is written next. -/
def segmentOf : Segment where
  header := {
    number := e.nextSegment, kind, page, referred
    deferredNonRetain := false
    retention := isKept kind :: referred.map fun _ => true
    dataLength := some data.size }
  data := data

/-- The encoder behind one more segment. -/
def append (segment : Segment) : Encoder :=
  { e with written := e.written ++ segment.bytes, nextSegment := e.nextSegment + 1 }

@[simp] theorem append_written (segment : Segment) :
    (e.append segment).written = e.written ++ segment.bytes := rfl

@[simp] theorem append_nextSegment (segment : Segment) :
    (e.append segment).nextSegment = e.nextSegment + 1 := rfl

@[simp] theorem append_pageCount (segment : Segment) :
    (e.append segment).pageCount = e.pageCount := rfl

@[simp] theorem append_page (segment : Segment) : (e.append segment).page = e.page := rfl

/-- Whether a segment is refused: numbers run out, it refers to a segment that isn't before it, or
its data is too long. -/
def Refuses : Prop :=
  maxNumber < e.nextSegment + e.numbersNeeded kind ∨ referred.any (e.nextSegment ≤ ·) = true ∨
    0xFFFFFFFF < data.size

instance : Decidable (e.Refuses kind referred data) := inferInstanceAs (Decidable (_ ∨ _ ∨ _))

/-- Writing a segment. -/
theorem run_writeSegment : (writeSegment kind page referred data).run e =
    if e.Refuses kind referred data then (.error .valueNotRepresentable, e)
    else (.ok e.nextSegment, e.append (e.segmentOf kind page referred data)) := by
  unfold writeSegment
  rw [run_bind_get]
  dsimp only
  by_cases h : e.Refuses kind referred data
  · rw [if_pos h]
    unfold Refuses at h
    rw [if_pos h]
    rfl
  · rw [if_neg h]
    unfold Refuses at h
    rw [if_neg h]
    simp only [SegmentHeader.write_eq]
    simp [append, segmentOf, Segment.bytes, Writer.writeBytes, Array.append_assoc]
    rfl

theorem numbersNeeded_pos : 0 < e.numbersNeeded kind := by
  unfold numbersNeeded
  split
  · decide
  · decide
  · split <;> decide

variable {e kind page referred data}

theorem nextSegment_lt_of_not_refuses (h : ¬e.Refuses kind referred data) :
    e.nextSegment + e.numbersNeeded kind ≤ 0xFFFFFFFF := by
  unfold Refuses maxNumber at h
  omega

theorem referred_lt_of_not_refuses (h : ¬e.Refuses kind referred data) :
    ∀ n ∈ referred, n < e.nextSegment := by
  intro n hn
  unfold Refuses at h
  have hany := (not_or.mp (not_or.mp h).2).1
  simp only [List.any_eq_true, decide_eq_true_eq, not_exists, not_and, Nat.not_le] at hany
  exact hany n hn

variable (page) in
/-- A segment that is written fits its header. -/
theorem coherent_segmentOf (h : ¬e.Refuses kind referred data) (hpage : page ≤ 0xFFFFFFFF)
    (hbound : kind.pageBound = true → page ≠ 0) :
    (e.segmentOf kind page referred data).Coherent where
  number := by
    have hnumber := nextSegment_lt_of_not_refuses h
    exact (Nat.le_add_right _ _).trans hnumber
  page := hpage
  retention := by simp [segmentOf]
  length := rfl
  valid := SegmentHeader.validate_eq_ok_iff.mpr ⟨referred_lt_of_not_refuses h, hbound⟩

end

/-! ## Pages -/

section

variable {e : Encoder} {canvas : Canvas}

/-- The encoder without its page. -/
def closed (e : Encoder) : Encoder := { e with page := none }

@[simp] theorem closed_written (e : Encoder) : e.closed.written = e.written := rfl

@[simp] theorem closed_nextSegment (e : Encoder) : e.closed.nextSegment = e.nextSegment := rfl

@[simp] theorem closed_pageCount (e : Encoder) : e.closed.pageCount = e.pageCount := rfl

@[simp] theorem closed_page (e : Encoder) : e.closed.page = none := rfl

/-- The end of a page, as a segment. -/
def endSegment (e : Encoder) (canvas : Canvas) : Segment :=
  e.segmentOf .endOfPage canvas.number [] #[]

/-- The end of the open page, if there is one. -/
def endSegments (e : Encoder) : List Segment := (e.page.map e.closed.endSegment).toList

/-- Ending a page. -/
theorem run_endPage (hpage : e.page = some canvas) : endPage.run e = (.ok (some canvas.bitmap),
    if e.closed.Refuses .endOfPage [] #[] then e.closed
    else e.closed.append (e.closed.endSegment canvas)) := by
  have hwrite := e.closed.run_writeSegment .endOfPage canvas.number [] #[]
  unfold endPage
  rw [run_bind_get, hpage]
  dsimp only
  rw [run_bind_modify]
  by_cases h : e.closed.Refuses .endOfPage [] #[]
  · rw [if_pos h] at hwrite ⊢
    exact run_bind_ok (run_tryCatch_error (run_bind_error hwrite) rfl)
  · rw [if_neg h] at hwrite ⊢
    exact run_bind_ok (run_tryCatch_ok (run_bind_ok hwrite))

theorem run_endPage_none (hpage : e.page = none) : endPage.run e = (.ok none, e) := by
  unfold endPage
  rw [run_bind_get, hpage]
  rfl

/-- While a number is left, the end of a page is written. -/
theorem not_refuses_endOfPage (h : e.nextSegment < 0xFFFFFFFF) :
    ¬e.closed.Refuses .endOfPage [] #[] := by
  unfold Refuses maxNumber closed numbersNeeded
  simp
  omega

/-- Ending a page gives its bitmap. -/
theorem run_endPage_fst (e : Encoder) : (endPage.run e).1 = .ok e.pageBitmap? := by
  cases hpage : e.page with
  | none => rw [run_endPage_none hpage, pageBitmap?, hpage, Option.map_none]
  | some canvas => rw [run_endPage hpage, pageBitmap?, hpage, Option.map_some]

/-- No page is open behind its end. -/
@[simp] theorem page_endPage (e : Encoder) : (endPage.run e).2.page = none := by
  cases hpage : e.page with
  | none =>
    rw [run_endPage_none hpage]
    exact hpage
  | some canvas =>
    rw [run_endPage hpage]
    dsimp only
    split <;> simp

@[simp] theorem pageCount_endPage (e : Encoder) : (endPage.run e).2.pageCount = e.pageCount := by
  cases hpage : e.page with
  | none => rw [run_endPage_none hpage]
  | some canvas =>
    rw [run_endPage hpage]
    dsimp only
    split <;> simp

/-- What is said of a new page, as a segment. -/
def pageSegment (e : Encoder) (width height : Nat) : Segment :=
  e.segmentOf .pageInformation (e.pageCount + 1) [] (newPage width height).bytes

/-- The encoder behind the start of a page. -/
def opened (e : Encoder) (width height : Nat) : Encoder :=
  { e.append (e.pageSegment width height) with
    pageCount := e.pageCount + 1
    page := some ⟨e.pageCount + 1, .blank width height⟩ }

/-- Starting a page ends the open one, if there is one, and opens a new one unless numbers run
out. -/
theorem run_startPage (e : Encoder) (width height : Nat) :
    let between := (endPage.run e).2
    (startPage width height).run e =
      if width = 0 ∨ height = 0 then (.error .emptyBitmap, e)
      else if maxNumber < between.pageCount + 1 ∨
          between.Refuses .pageInformation [] (newPage width height).bytes then
        (.error .valueNotRepresentable, between)
      else (.ok (between.pageCount + 1), between.opened width height) := by
  dsimp only
  unfold startPage
  by_cases hempty : width = 0 ∨ height = 0
  · rw [if_pos hempty, if_pos hempty]
    rfl
  rw [if_neg hempty, if_neg hempty]
  have hend : endPage.run e = (.ok e.pageBitmap?, (endPage.run e).2) :=
    Prod.ext (run_endPage_fst e) rfl
  generalize (endPage.run e).2 = between at hend ⊢
  rw [run_bind_ok hend, run_bind_get]
  dsimp only
  by_cases hcount : maxNumber < between.pageCount + 1
  · rw [if_pos hcount, if_pos (.inl hcount)]
    rfl
  have hwrite := between.run_writeSegment .pageInformation (between.pageCount + 1) []
    (newPage width height).bytes
  have hdata : ((newPage width height).write .empty).data = (newPage width height).bytes := by
    rw [PageInfo.write_eq]
    exact Array.empty_append
  rw [if_neg hcount, hdata]
  by_cases h : between.Refuses .pageInformation [] (newPage width height).bytes
  · rw [if_pos h] at hwrite
    rw [run_bind_error hwrite, if_pos (.inr h)]
  · rw [if_neg h] at hwrite
    rw [run_bind_ok hwrite, run_bind_modify, if_neg (not_or.mpr ⟨hcount, h⟩)]
    rfl

end

/-! ## Regions -/

/-- A region was written and drawn onto the open page. -/
structure Drew (coding : RegionCoding) (referred : List Nat) (data : Bytes) (bitmap : Bitmap)
    (x y : Nat) (operator : CombinationOperator) (canvas : Canvas) (e after : Encoder) : Prop where
  page : e.page = some canvas
  not_refuses : ¬e.Refuses (.region coding .immediateLossless) referred data
  eq : after = { e.append
      (e.segmentOf (.region coding .immediateLossless) canvas.number referred data) with
    page := some { canvas with bitmap := canvas.bitmap.combine bitmap x y operator } }

section

variable {e : Encoder} {canvas : Canvas}

theorem run_openPage (hpage : e.page = some canvas) : openPage.run e = (.ok canvas, e) := by
  unfold openPage
  rw [run_bind_get, hpage]
  rfl

theorem run_openPage_none (hpage : e.page = none) : openPage.run e = (.error .noPage, e) := by
  unfold openPage
  rw [run_bind_get, hpage]
  rfl

/-- Writing a region and drawing it. -/
theorem run_region (hpage : e.page = some canvas) (coding : RegionCoding) (referred : List Nat)
    (data : Bytes) (bitmap : Bitmap) (x y : Nat) (operator : CombinationOperator) :
    let call : Encoding Nat := do
      let number ← writeSegment (.region coding .immediateLossless) canvas.number referred data
      drawOnPage bitmap x y operator
      return number
    Refused call e ∨ ∃ after, call.run e = (.ok e.nextSegment, after) ∧
      Drew coding referred data bitmap x y operator canvas e after := by
  dsimp only
  have hwrite := e.run_writeSegment (.region coding .immediateLossless) canvas.number referred data
  by_cases h : e.Refuses (.region coding .immediateLossless) referred data
  · rw [if_pos h] at hwrite
    exact .inl (refused_bind ⟨_, hwrite⟩)
  · rw [if_neg h] at hwrite
    rw [run_bind_ok hwrite]
    unfold drawOnPage
    rw [run_bind_modify]
    have hpage' : (e.append (e.segmentOf (.region coding .immediateLossless) canvas.number referred
        data)).page = some canvas := hpage
    rw [hpage']
    exact .inr ⟨_, rfl, hpage, h, rfl⟩

theorem run_checkSize (bitmap : Bitmap) (e : Encoder) : (checkSize bitmap).run e =
    if bitmap.width = 0 ∨ bitmap.height = 0 then (.error .emptyBitmap, e) else (.ok (), e) := by
  unfold checkSize
  split <;> rfl

/-- A region is added to a page that is open, and only if it isn't empty. -/
theorem run_onPage {α : Type} (bitmap : Bitmap) (e : Encoder) (add : Canvas → Encoding α) :
    let call : Encoding α := do
      let canvas ← openPage
      checkSize bitmap
      add canvas
    Refused call e ∨ ∃ canvas, e.page = some canvas ∧ (bitmap.width ≠ 0 ∧ bitmap.height ≠ 0) ∧
      call.run e = (add canvas).run e := by
  dsimp only
  cases hpage : e.page with
  | none => exact .inl (refused_bind ⟨_, run_openPage_none hpage⟩)
  | some canvas =>
    rw [refused_bind_iff (run_openPage hpage), run_bind_ok (run_openPage hpage)]
    have hcheck := run_checkSize bitmap e
    by_cases hempty : bitmap.width = 0 ∨ bitmap.height = 0
    · rw [if_pos hempty] at hcheck
      exact .inl (refused_bind ⟨_, hcheck⟩)
    · rw [if_neg hempty] at hcheck
      exact .inr ⟨canvas, rfl, not_or.mp hempty, run_bind_ok hcheck⟩

end

/-- The coding of a generic region. -/
def codingOf (options : GenericOptions) : GenericParams where
  template := options.template
  skipsRows := options.skipsRows
  atPixels := options.atPixels.getD options.template.nominalAt

theorem run_genericParams (options : GenericOptions) (e : Encoder) :
    (genericParams options).run e = (.error .valueNotRepresentable, e) ∨
      (genericParams options).run e = (.ok (codingOf options), e) ∧
        ∀ pixels ∈ options.atPixels, pixels.length = options.template.atCount ∧
          ∀ p ∈ pixels, p.causal = true := by
  unfold genericParams codingOf
  cases hpixels : options.atPixels with
  | none => exact .inr ⟨rfl, fun _ h => absurd h (by simp)⟩
  | some pixels =>
    dsimp only
    split
    · exact .inl rfl
    · next h =>
      refine .inr ⟨rfl, fun pixels' h' => ?_⟩
      obtain rfl := Option.some.inj h'
      obtain ⟨hlength, hcausal⟩ := not_or.mp h
      exact ⟨not_not.mp hlength, by simpa using hcausal⟩

section

variable (bitmap : Bitmap) (x y : Nat) (e : Encoder)

/-- The data of a generic region. -/
def genericData (options : GenericOptions) : Bytes :=
  Generic.encodeRegion ⟨bitmap.width, bitmap.height, x, y, options.operator⟩ (codingOf options)
    bitmap

theorem addGeneric_cases (options : GenericOptions) :
    Refused (addGeneric bitmap x y options) e ∨
      ∃ canvas after, (addGeneric bitmap x y options).run e = (.ok e.nextSegment, after) ∧
        ((bitmap.width ≠ 0 ∧ bitmap.height ≠ 0) ∧
          ∀ pixels ∈ options.atPixels, pixels.length = options.template.atCount ∧
            ∀ p ∈ pixels, p.causal = true) ∧
        Drew .generic [] (genericData bitmap x y options) bitmap x y options.operator canvas e
          after := by
  unfold addGeneric
  rcases run_onPage bitmap e _ with hrefused | ⟨canvas, hpage, hsize, hcall⟩
  · exact .inl hrefused
  rw [refused_congr hcall, hcall]
  rcases run_genericParams options e with hparams | ⟨hparams, hallowed⟩
  · exact .inl (refused_bind ⟨_, hparams⟩)
  rw [refused_bind_iff hparams, run_bind_ok hparams]
  rcases run_region hpage .generic [] (genericData bitmap x y options) bitmap x y
    options.operator with hrefused | ⟨after, hrun, hdrew⟩
  · exact .inl hrefused
  · exact .inr ⟨canvas, after, hrun, ⟨hsize, hallowed⟩, hdrew⟩

/-- The data of a refinement of what is on a page. -/
def refinementData (options : RefinementOptions) (canvas : Canvas) : Bytes :=
  Refinement.encodeRegion ⟨bitmap.width, bitmap.height, x, y, options.operator⟩
    { template := options.template, skipsPixels := options.skipsPixels }
    (canvas.bitmap.window x y bitmap.width bitmap.height) bitmap

theorem addRefinement_cases (options : RefinementOptions) :
    Refused (addRefinement bitmap x y options) e ∨
      ∃ canvas after, (addRefinement bitmap x y options).run e = (.ok e.nextSegment, after) ∧
        (bitmap.width ≠ 0 ∧ bitmap.height ≠ 0) ∧
        Drew .refinement [] (refinementData bitmap x y options canvas) bitmap x y options.operator
          canvas e after := by
  unfold addRefinement
  rcases run_onPage bitmap e _ with hrefused | ⟨canvas, hpage, hsize, hcall⟩
  · exact .inl hrefused
  rw [refused_congr hcall, hcall]
  rcases run_region hpage .refinement [] (refinementData bitmap x y options canvas) bitmap x y
    options.operator with hrefused | ⟨after, hrun, hdrew⟩
  · exact .inl hrefused
  · exact .inr ⟨canvas, after, hrun, hsize, hdrew⟩

end

/-! ## Dictionaries and tables -/

/-- The page to which a dictionary or a table belongs. -/
def pageNumber (e : Encoder) : Nat := (e.page.map (·.number)).getD 0

theorem pageNumber_eq {e : Encoder} {canvas : Canvas} (hpage : e.page = some canvas) :
    e.pageNumber = canvas.number := by
  unfold pageNumber
  rw [hpage]
  rfl

theorem run_currentPage (e : Encoder) : currentPage.run e = (.ok e.pageNumber, e) := rfl

/-- What is known of a dictionary that was written. -/
def dictionaryOf (segment : Nat) (symbols : List Bitmap) (encoded : Symbol.Encoded) :
    WrittenDictionary where
  segment := segment
  symbols := (encoded.exported.filterMap fun i => symbols[i]?).toArray
  exported := encoded.exported
  order := encoded.order

theorem mem_dictionaryOf {segment : Nat} {symbols : List Bitmap} {encoded : Symbol.Encoded}
    {symbol : Bitmap} (h : symbol ∈ (dictionaryOf segment symbols encoded).symbols) :
    symbol ∈ symbols := by
  have hmem := List.mem_toArray.mp h
  obtain ⟨i, -, hi⟩ := List.mem_filterMap.mp hmem
  exact List.mem_of_getElem? hi

/-- Which symbols of a dictionary are exported: all of them unless flags say otherwise. -/
def flagsOf (symbols : List Bitmap) (exports : Option (List Bool)) : List Bool :=
  exports.getD (symbols.map fun _ => true)

theorem addDictionary_cases (symbols : List Bitmap) (coding : Symbol.Coding)
    (exports : Option (List Bool)) (e : Encoder) :
    Refused (addDictionary symbols coding exports) e ∨
      ∃ encoded, Symbol.encode symbols (flagsOf symbols exports) coding = .ok encoded ∧
        ¬e.Refuses .symbolDictionary [] encoded.data ∧
        (addDictionary symbols coding exports).run e =
          (.ok (dictionaryOf e.nextSegment symbols encoded),
            e.append (e.segmentOf .symbolDictionary e.pageNumber [] encoded.data)) := by
  unfold addDictionary
  cases hresult : Symbol.encode symbols (flagsOf symbols exports) coding with
  | error error => exact .inl ⟨error, run_bind_except_error hresult⟩
  | ok encoded =>
    have hwrite := e.run_writeSegment .symbolDictionary e.pageNumber [] encoded.data
    refine (em (e.Refuses .symbolDictionary [] encoded.data)).imp (fun h => ?_) fun h => ?_
    · rw [if_pos h] at hwrite
      refine ⟨.valueNotRepresentable, (run_bind_except hresult).trans ?_⟩
      exact (run_bind_ok (run_currentPage e)).trans (run_bind_error hwrite)
    · rw [if_neg h] at hwrite
      refine ⟨encoded, rfl, h, (run_bind_except hresult).trans ?_⟩
      exact (run_bind_ok (run_currentPage e)).trans (run_bind_ok hwrite)

theorem addCodeTable_cases (table : Huffman.CodeTable) (e : Encoder) :
    Refused (addCodeTable table) e ∨
      ∃ data, table.write = .ok data ∧ ¬e.Refuses .tables [] data ∧
        (addCodeTable table).run e =
          (.ok e.nextSegment, e.append (e.segmentOf .tables e.pageNumber [] data)) := by
  unfold addCodeTable
  cases hresult : table.write with
  | error error => exact .inl ⟨error, run_bind_except_error rfl⟩
  | ok data =>
    have hwrite := e.run_writeSegment .tables e.pageNumber [] data
    refine (em (e.Refuses .tables [] data)).imp (fun h => ?_) fun h => ?_
    · rw [if_pos h] at hwrite
      exact ⟨.valueNotRepresentable,
        (run_bind_except rfl).trans ((run_bind_ok (run_currentPage e)).trans hwrite)⟩
    · rw [if_neg h] at hwrite
      exact ⟨data, rfl, h,
        (run_bind_except rfl).trans ((run_bind_ok (run_currentPage e)).trans hwrite)⟩

/-! ## Text -/

/-- The symbols of some dictionaries, one dictionary after the other. -/
def symbolsOf (dictionaries : List WrittenDictionary) : Array Bitmap :=
  dictionaries.foldl (fun symbols d => symbols ++ d.symbols) #[]

theorem mem_symbolsOf {dictionaries : List WrittenDictionary} {symbol : Bitmap} :
    symbol ∈ symbolsOf dictionaries ↔ ∃ d ∈ dictionaries, symbol ∈ d.symbols := by
  suffices hfold : ∀ symbols : Array Bitmap,
      symbol ∈ dictionaries.foldl (fun symbols d => symbols ++ d.symbols) symbols ↔
        symbol ∈ symbols ∨ ∃ d ∈ dictionaries, symbol ∈ d.symbols by
    simpa [symbolsOf] using hfold #[]
  induction dictionaries with
  | nil => simp
  | cons d dictionaries ih =>
    intro symbols
    rw [List.foldl_cons, ih]
    simp [or_assoc]

theorem addText_cases (dictionaries : List WrittenDictionary) (instances : List Text.Placement)
    (info : RegionInfo) (logStrips : Nat) (e : Encoder) :
    Refused (addText dictionaries instances info logStrips) e ∨
      ∃ canvas data after, (addText dictionaries instances info logStrips).run e =
          (.ok e.nextSegment, after) ∧
        (info.width ≠ 0 ∧ info.height ≠ 0) ∧
        Text.encodeRegion info (symbolsOf dictionaries) instances logStrips = .ok data ∧
        Drew .text (dictionaries.map (·.segment)) data
          (drawInstances (symbolsOf dictionaries) instances (.blank info.width info.height)) info.x
          info.y info.operator canvas e after := by
  unfold addText
  cases hpage : e.page with
  | none => exact .inl (refused_bind ⟨_, run_openPage_none hpage⟩)
  | some canvas =>
    rw [refused_bind_iff (run_openPage hpage), run_bind_ok (run_openPage hpage)]
    by_cases hempty : info.width = 0 ∨ info.height = 0
    · rw [if_pos hempty]
      exact .inl ⟨_, rfl⟩
    rw [if_neg hempty]
    have hsymbols : dictionaries.foldl (fun symbols d => symbols ++ d.symbols) #[] =
        symbolsOf dictionaries := rfl
    dsimp only
    rw [hsymbols]
    cases hresult : Text.encodeRegion info (symbolsOf dictionaries) instances logStrips with
    | error error =>
      exact .inl ⟨_, run_bind_except_error rfl⟩
    | ok data =>
      rw [run_bind_except rfl]
      rcases run_region hpage .text (dictionaries.map (·.segment)) data
        (drawInstances (symbolsOf dictionaries) instances (.blank info.width info.height)) info.x
        info.y info.operator with ⟨error, hrefused⟩ | ⟨after, hrun, hdrew⟩
      · exact .inl ⟨error, (run_bind_except rfl).trans hrefused⟩
      · exact .inr ⟨canvas, data, after, hrun, not_or.mp hempty, rfl, hdrew⟩

/-- When a text region is accepted. -/
theorem isOk_addText {e : Encoder} {canvas : Canvas} {dictionaries : List WrittenDictionary}
    {instances : List Text.Placement} {info : RegionInfo} {logStrips : Nat} {data : Bytes}
    (hpage : e.page = some canvas) (hinfo : info.width ≠ 0 ∧ info.height ≠ 0)
    (hdata : Text.encodeRegion info (symbolsOf dictionaries) instances logStrips = .ok data)
    (hrefuses : ¬e.Refuses (.region .text .immediateLossless) (dictionaries.map (·.segment)) data) :
    ((addText dictionaries instances info logStrips).run e).1.isOk = true := by
  have hwrite := e.run_writeSegment (.region .text .immediateLossless) canvas.number
    (dictionaries.map (·.segment)) data
  rw [if_neg hrefuses] at hwrite
  have hsymbols : dictionaries.foldl (fun symbols d => symbols ++ d.symbols) #[] =
      symbolsOf dictionaries := rfl
  unfold addText
  rw [run_bind_ok (run_openPage hpage), if_neg (not_or.mpr hinfo)]
  dsimp only
  rw [hsymbols, run_bind_except hdata, run_bind_ok hwrite]
  rfl

end Encoder
end Bilevel

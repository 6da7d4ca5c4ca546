import Bilevel.Proofs.Document.Step
import Bilevel.Proofs.Encoder.Segments
import Bilevel.Proofs.Huffman.Custom
import Bilevel.Proofs.Symbol.Dictionary
import Bilevel.Proofs.Text.Region

/-!
# What decoding makes of written segments

The assembly of the segments that an encoder has written has the page of the encoder open, with the
same pixels; it has ended the same pages and stored the same dictionaries, and nothing has failed.

## Main definitions

* `Mirrors` — an assembly has what an encoder has.

## Main results

* `Mirrors.endPage`, `Mirrors.startPage`, `Mirrors.generic`, `Mirrors.refinement`, `Mirrors.text`,
  `Mirrors.dictionary`, `Mirrors.table` — this stays so with every kind of segment.
* `Mirrors.ends_of_generic`, `Mirrors.ends_of_refinement`, `Mirrors.legible_of_text`,
  `Mirrors.readable_of_table` — what has to hold for that, as nothing fails only then.
-/

namespace Bilevel

open Assembly

/-- An assembly has the open page of an encoder, its ended pages and its dictionaries. -/
structure Mirrors (page : Option Canvas) (ended : List Bitmap)
    (dictionaries : List WrittenDictionary) (a : Assembly) : Prop where
  failures : a.failures = #[]
  failedPages : a.failedPages = ∅
  openPage : ∀ canvas ∈ page, ∃ p, a.openPages[canvas.number]? = some p ∧
    p.bitmap = canvas.bitmap ∧ p.info.height.isSome
  noOther : ∀ n, (∀ canvas ∈ page, canvas.number ≠ n) → a.openPages[n]? = none
  numbers : a.pages.toList.map (·.number) = List.range' 1 ended.length
  bitmaps : a.pages.toList.map (·.bitmap) = ended
  stored : ∀ d ∈ dictionaries, a.store.dictionaries[d.segment]? = some ⟨d.symbols, none⟩
  notStored : ∀ n, (∀ d ∈ dictionaries, d.segment ≠ n) → a.store.dictionaries[n]? = none

/-- The adaptive pixels of a generic region that is written can be read again. -/
theorem Encoder.writable_codingOf {options : GenericOptions}
    (hallowed : ∀ pixels ∈ options.atPixels, pixels.length = options.template.atCount ∧
      ∀ p ∈ pixels, p.causal = true)
    (hfits : ∀ pixels ∈ options.atPixels, ∀ p ∈ pixels, p.Fits) :
    Generic.Writable (codingOf options) := by
  cases hpixels : options.atPixels with
  | none =>
    have hcoding : codingOf options =
        { template := options.template, skipsRows := options.skipsRows } := by
      unfold codingOf
      rw [hpixels, Option.getD_none]
    exact hcoding ▸ Generic.writable_nominal _ _
  | some pixels =>
    obtain ⟨hlength, hcausal⟩ := hallowed pixels hpixels
    have hcoding : (codingOf options).atPixels = pixels := by
      unfold codingOf
      rw [hpixels, Option.getD_some]
    exact ⟨hcoding ▸ hlength, hcoding ▸ hcausal, hcoding ▸ hfits pixels hpixels⟩

/-- There is always room on a page of given height. -/
theorem makeRoom_eq (settings : DecodeSettings) {p : OpenPage} {info : RegionInfo}
    (hheight : p.info.height.isSome) (hx : info.x + info.width ≤ 0xFFFFFFFF)
    (hy : info.y + info.height ≤ 0xFFFFFFFF) : p.makeRoom settings info = .ok p := by
  have hcheck {n : Nat} (h : n ≤ 0xFFFFFFFF) : checkWord n = .ok n :=
    checkWord_eq_ok.mpr ⟨h, rfl⟩
  unfold OpenPage.makeRoom OpenPage.grow
  simp only [hcheck hx, hcheck hy, hheight, true_or, if_true, Bind.bind, Except.bind]

/-- What a refinement of the page refines. -/
theorem reference_eq (settings : DecodeSettings) (segment : Segment) {a : Assembly} {p : OpenPage}
    {info : RegionInfo} (hp : a.openPages[segment.header.page]? = some p)
    (hheight : p.info.height.isSome) (hreferred : segment.header.referred = [])
    (hdata : ∃ rest, segment.data = info.bytes ++ rest) (hinfo : info.Fits)
    (hx : info.x + info.width ≤ 0xFFFFFFFF) (hy : info.y + info.height ≤ 0xFFFFFFFF)
    (hsize : info.width * info.height ≤ settings.maxPixelCount) :
    a.reference settings none segment = .ok (p.bitmap.window info.x info.y info.width info.height,
      a.setPage segment.header.page p) := by
  obtain ⟨rest, hdata⟩ := hdata
  have hread := (RegionInfo.readsBytes hinfo settings).run_append rest
  have hcrop : p.bitmap.crop settings.maxPixelCount info.x info.y info.width info.height =
      .ok (p.bitmap.window info.x info.y info.width info.height) :=
    if_neg (Nat.not_lt.mpr hsize)
  unfold Assembly.reference
  rw [hdata, hreferred]
  simp only [hread, page_eq_ok.mpr hp, makeRoom_eq settings hheight hx hy, hcrop, Bind.bind, Except.bind]
  rfl

/-- What there is room for ends in the range of coordinates. -/
theorem ends_of_makeRoom {settings : DecodeSettings} {p p' : OpenPage} {info : RegionInfo}
    (h : p.makeRoom settings info = .ok p') :
    info.x + info.width ≤ 0xFFFFFFFF ∧ info.y + info.height ≤ 0xFFFFFFFF := by
  obtain ⟨right, hright, h⟩ := bind_eq_ok.mp h
  obtain ⟨bottom, hbottom, -⟩ := bind_eq_ok.mp h
  exact ⟨(checkWord_eq_ok.mp hright).1, (checkWord_eq_ok.mp hbottom).1⟩

/-- So does what can be drawn. -/
theorem ends_of_place {settings : DecodeSettings} {a b : Assembly} {header : SegmentHeader}
    {region : Region} (h : a.place settings header .immediateLossless region = .ok b) :
    region.info.x + region.info.width ≤ 0xFFFFFFFF ∧
      region.info.y + region.info.height ≤ 0xFFFFFFFF := by
  obtain ⟨p, -, h⟩ := bind_eq_ok.mp h
  obtain ⟨p', hdraw, -⟩ := bind_eq_ok.mp h
  obtain ⟨p'', hroom, -⟩ := bind_eq_ok.mp hdraw
  exact ends_of_makeRoom hroom

/-- So does what can be refined on a page. -/
theorem ends_of_reference {settings : DecodeSettings} {segment : Segment} {a : Assembly}
    {info : RegionInfo} {result : Bitmap × Assembly} (hreferred : segment.header.referred = [])
    (hdata : ∃ rest, segment.data = info.bytes ++ rest) (hinfo : info.Fits)
    (h : a.reference settings none segment = .ok result) :
    info.x + info.width ≤ 0xFFFFFFFF ∧ info.y + info.height ≤ 0xFFFFFFFF := by
  obtain ⟨rest, hdata⟩ := hdata
  have hread := (RegionInfo.readsBytes hinfo settings).run_append rest
  unfold Assembly.reference at h
  rw [hdata, hreferred, hread] at h
  obtain ⟨_, hok, h⟩ := bind_eq_ok.mp h
  obtain rfl := Except.ok.inj hok
  obtain ⟨p, -, h⟩ := bind_eq_ok.mp h
  obtain ⟨p', hroom, -⟩ := bind_eq_ok.mp h
  exact ends_of_makeRoom hroom

namespace Mirrors

variable {page : Option Canvas} {canvas : Canvas} {ended : List Bitmap}
  {dictionaries : List WrittenDictionary} {a b : Assembly} {settings : DecodeSettings}
  {segment : Segment}

theorem empty : Mirrors none [] [] {} where
  failures := rfl
  failedPages := rfl
  openPage _ h := absurd h (by simp)
  noOther n _ := Std.ExtTreeMap.getElem?_empty
  numbers := rfl
  bitmaps := rfl
  stored _ h := absurd h List.not_mem_nil
  notStored n _ := Std.ExtTreeMap.getElem?_empty

/-- A segment that can be decoded is not passed over. -/
theorem process_decode (h : Mirrors page ended dictionaries a)
    (hd : a.decode settings none segment = .ok b) :
    a.process settings none segment = b.noteDecoded segment.header.number := by
  have hpassed : a.passesOver segment.header.page = false := by
    unfold passesOver
    rw [h.failedPages]
    simp
  unfold Assembly.process
  simp only [hpassed, hd, Bool.false_eq_true, if_false]

/-- As long as nothing fails, segments can be decoded. -/
theorem exists_decode (h : Mirrors page ended dictionaries a)
    (hclean : (a.process settings none segment).failures = #[]) :
    ∃ b, a.decode settings none segment = .ok b := by
  rcases processed_process settings none segment a with ⟨hpassed, -⟩ | ⟨-, b, hok, -⟩ |
    ⟨-, error, -, heq⟩
  · obtain ⟨-, hfailed⟩ := passesOver_eq_true.mp hpassed
    rw [h.failedPages] at hfailed
    exact absurd hfailed Std.ExtTreeSet.not_mem_empty
  · exact ⟨b, hok⟩
  · rw [heq, fail_failures] at hclean
    exact absurd hclean Array.push_ne_empty

theorem noteDecoded (h : Mirrors page ended dictionaries a) (number : Nat) :
    Mirrors page ended dictionaries (a.noteDecoded number) :=
  ⟨h.failures, h.failedPages, h.openPage, h.noOther, h.numbers, h.bitmaps, h.stored, h.notStored⟩

/-- What a segment that can be decoded leaves. -/
theorem process {page' : Option Canvas} {ended' : List Bitmap}
    {dictionaries' : List WrittenDictionary} (h : Mirrors page ended dictionaries a)
    (hd : a.decode settings none segment = .ok b) (hb : Mirrors page' ended' dictionaries' b) :
    Mirrors page' ended' dictionaries' (a.process settings none segment) :=
  h.process_decode hd ▸ hb.noteDecoded _

/-! ## Pages -/

/-- A change of the open page. -/
theorem setPage (h : Mirrors (some canvas) ended dictionaries a) {p : OpenPage} {bitmap : Bitmap}
    (hbitmap : p.bitmap = bitmap) (hheight : p.info.height.isSome) :
    Mirrors (some { canvas with bitmap := bitmap }) ended dictionaries
      (a.setPage canvas.number p) where
  failures := h.failures
  failedPages := h.failedPages
  openPage c hc := by
    obtain rfl := Option.some.inj hc
    exact ⟨p, Numbered.get?_insert_self, hbitmap, hheight⟩
  noOther n hn := by
    have hne : canvas.number ≠ n := hn { canvas with bitmap := bitmap } rfl
    refine (Numbered.get?_insert_of_ne hne.symm).trans (h.noOther n fun c hc => ?_)
    obtain rfl := Option.some.inj hc
    exact hne
  numbers := h.numbers
  bitmaps := h.bitmaps
  stored := h.stored
  notStored := h.notStored

/-- The end of the open page. -/
theorem endPage (h : Mirrors (some canvas) ended dictionaries a)
    (hnumber : canvas.number = ended.length + 1) (hkind : segment.header.kind = .endOfPage)
    (hpage : segment.header.page = canvas.number) :
    Mirrors none (ended ++ [canvas.bitmap]) dictionaries (a.process settings none segment) := by
  obtain ⟨p, hp, hbitmap, -⟩ := h.openPage canvas rfl
  have hend : a.endPage canvas.number = { a with
      openPages := a.openPages.erase canvas.number
      pages := a.pages.push (p.finish canvas.number) } := by
    unfold Assembly.endPage
    rw [hp]
  have hdecode : a.decode settings none segment = .ok (a.endPage canvas.number) := by
    unfold Assembly.decode
    rw [hkind, hpage]
    simp only [page_eq_ok.mpr hp, Bind.bind, Except.bind]
    rfl
  refine h.process hdecode ?_
  rw [hend]
  refine ⟨h.failures, h.failedPages, fun _ hc => absurd hc (by simp), fun n _ => ?_, ?_, ?_,
    h.stored, h.notStored⟩
  · refine Numbered.get?_erase.trans ?_
    split
    · rfl
    · next hne =>
      refine h.noOther n fun c hc => ?_
      obtain rfl := Option.some.inj hc
      exact Ne.symm hne
  · simp [h.numbers, OpenPage.finish, hnumber, List.range'_concat, Nat.add_comm]
  · simp [h.bitmaps, OpenPage.finish, hbitmap]

/-- The start of a page. -/
theorem startPage (h : Mirrors none ended dictionaries a) {width height : Nat}
    (hpos : 0 < width ∧ 0 < height) (hsize : width * height ≤ 0x40000000)
    (hsettings : 0x40000000 ≤ settings.maxPixelCount)
    (hkind : segment.header.kind = .pageInformation)
    (hdata : segment.data = (Encoder.newPage width height).bytes) :
    Mirrors (some ⟨segment.header.page, .blank width height⟩) ended dictionaries
      (a.process settings none segment) := by
  have hwidth : width ≤ 0x40000000 := (Nat.le_mul_of_pos_right _ hpos.2).trans hsize
  have hheight : height ≤ 0x40000000 := (Nat.le_mul_of_pos_left _ hpos.1).trans hsize
  have hfits : (Encoder.newPage width height).Fits := by
    refine ⟨?_, fun n hn => ?_, ?_, ?_, ?_, ?_, ?_⟩ <;> simp [Encoder.newPage] at *
    · omega
    · unfold PageInfo.unknownHeight
      omega
  have hread := (PageInfo.readsBytes hfits).run_append #[]
  rw [Array.append_empty] at hread
  have hclosed : a.openPages.contains segment.header.page = false := by
    rw [← Bool.not_eq_true, Std.ExtTreeMap.contains_iff_mem,
      Std.ExtTreeMap.mem_iff_isSome_getElem?, h.noOther _ (fun _ hc => absurd hc (by simp))]
    simp
  have hstart : OpenPage.start settings (Encoder.newPage width height) =
      .ok { info := Encoder.newPage width height, bitmap := .blank width height } := by
    unfold OpenPage.start
    have hne : ¬(Encoder.newPage width height).width = 0 := Nat.ne_of_gt hpos.1
    have hcreate := Bitmap.create_eq (hsize.trans hsettings)
    rw [if_neg hne]
    simp only [Encoder.newPage, Option.getD_some, hcreate, Bind.bind, Except.bind]
    rfl
  have hdecode : a.decode settings none segment = .ok (a.setPage segment.header.page
      { info := Encoder.newPage width height, bitmap := .blank width height }) := by
    unfold Assembly.decode Assembly.startPage
    rw [hkind, hdata]
    simp only [hclosed, hread, hstart, Bind.bind, Except.bind, Bool.false_eq_true, if_false]
    rfl
  refine h.process hdecode ⟨h.failures, h.failedPages, fun c hc => ?_, fun n hn => ?_, h.numbers,
    h.bitmaps, h.stored, h.notStored⟩
  · obtain rfl := Option.some.inj hc
    exact ⟨_, Numbered.get?_insert_self, rfl, rfl⟩
  · refine (Numbered.get?_insert_of_ne (Ne.symm (hn _ rfl))).trans (h.noOther n ?_)
    exact fun _ hc => absurd hc (by simp)

/-! ## Regions -/

variable (settings) in
/-- Drawing a region onto the open page. -/
theorem place (h : Mirrors (some canvas) ended dictionaries a) {header : SegmentHeader}
    (hpage : header.page = canvas.number) (info : RegionInfo)
    (hx : info.x + info.width ≤ 0xFFFFFFFF) (hy : info.y + info.height ≤ 0xFFFFFFFF)
    (bitmap : Bitmap) :
    ∃ b, a.place settings header .immediateLossless ⟨info, bitmap⟩ = .ok b ∧
      Mirrors (some { canvas with
        bitmap := canvas.bitmap.combine bitmap info.x info.y info.operator }) ended dictionaries b := by
  obtain ⟨p, hp, hbitmap, hheight⟩ := h.openPage canvas rfl
  have hroom := makeRoom_eq settings hheight hx hy
  refine ⟨_, ?_, h.setPage (p := { p with
    bitmap := p.bitmap.combine bitmap info.x info.y info.operator }) (by rw [hbitmap]) hheight⟩
  unfold Assembly.place OpenPage.draw
  rw [hpage]
  simp only [page_eq_ok.mpr hp, hroom, Bind.bind, Except.bind]
  rfl

section

variable {e : Encoder} {bitmap : Bitmap} {x y : Nat}

/-- Decoding a generic region is drawing it. -/
theorem decode_generic (h : Mirrors (some canvas) ended dictionaries a) {options : GenericOptions}
    (hinfo : RegionInfo.Fits ⟨bitmap.width, bitmap.height, x, y, options.operator⟩)
    (hsize : bitmap.width * bitmap.height ≤ settings.maxPixelCount)
    (hwritable : Generic.Writable (Encoder.codingOf options)) :
    let segment := e.segmentOf (.region .generic .immediateLossless) canvas.number []
      (Encoder.genericData bitmap x y options)
    a.decode settings none segment = a.place settings segment.header .immediateLossless
      ⟨⟨bitmap.width, bitmap.height, x, y, options.operator⟩, bitmap⟩ := by
  have hregion := Generic.decodeRegion_encodeRegion hinfo hwritable rfl rfl hsize
  obtain ⟨p, hp, -⟩ := h.openPage canvas rfl
  dsimp only
  unfold Assembly.decode Assembly.decodeRegion
  simp only [Encoder.segmentOf, page_eq_ok.mpr hp, Bind.bind, Except.bind, Option.isNone_some,
    Encoder.genericData, hregion]

/-- A generic region. -/
theorem generic (h : Mirrors (some canvas) ended dictionaries a) {options : GenericOptions}
    (hx : x + bitmap.width ≤ 0xFFFFFFFF) (hy : y + bitmap.height ≤ 0xFFFFFFFF)
    (hsize : bitmap.width * bitmap.height ≤ settings.maxPixelCount)
    (hwritable : Generic.Writable (Encoder.codingOf options)) :
    Mirrors (some { canvas with bitmap := canvas.bitmap.combine bitmap x y options.operator }) ended
      dictionaries (a.process settings none (e.segmentOf (.region .generic .immediateLossless)
        canvas.number [] (Encoder.genericData bitmap x y options))) := by
  have hinfo : RegionInfo.Fits ⟨bitmap.width, bitmap.height, x, y, options.operator⟩ :=
    ⟨by simp only; omega, by simp only; omega, by simp only; omega, by simp only; omega⟩
  have hpage : (e.segmentOf (.region .generic .immediateLossless) canvas.number []
    (Encoder.genericData bitmap x y options)).header.page = canvas.number := rfl
  obtain ⟨b, hplace, hb⟩ := h.place settings hpage
    ⟨bitmap.width, bitmap.height, x, y, options.operator⟩ hx hy bitmap
  exact h.process ((h.decode_generic hinfo hsize hwritable).trans hplace) hb

/-- A generic region that doesn't fail ends in the range of coordinates. -/
theorem ends_of_generic (h : Mirrors (some canvas) ended dictionaries a) {options : GenericOptions}
    (hinfo : RegionInfo.Fits ⟨bitmap.width, bitmap.height, x, y, options.operator⟩)
    (hsize : bitmap.width * bitmap.height ≤ settings.maxPixelCount)
    (hwritable : Generic.Writable (Encoder.codingOf options))
    (hclean : (a.process settings none (e.segmentOf (.region .generic .immediateLossless)
      canvas.number [] (Encoder.genericData bitmap x y options))).failures = #[]) :
    x + bitmap.width ≤ 0xFFFFFFFF ∧ y + bitmap.height ≤ 0xFFFFFFFF := by
  obtain ⟨b, hb⟩ := h.exists_decode hclean
  rw [h.decode_generic hinfo hsize hwritable] at hb
  exact ends_of_place hb

/-- A refinement of what is on the page. -/
theorem refinement (h : Mirrors (some canvas) ended dictionaries a) {options : RefinementOptions}
    (hx : x + bitmap.width ≤ 0xFFFFFFFF) (hy : y + bitmap.height ≤ 0xFFFFFFFF)
    (hsize : bitmap.width * bitmap.height ≤ settings.maxPixelCount) :
    Mirrors (some { canvas with bitmap := canvas.bitmap.combine bitmap x y options.operator }) ended
      dictionaries (a.process settings none (e.segmentOf (.region .refinement .immediateLossless)
        canvas.number [] (Encoder.refinementData bitmap x y options canvas))) := by
  have hinfo : RegionInfo.Fits ⟨bitmap.width, bitmap.height, x, y, options.operator⟩ :=
    ⟨by simp only; omega, by simp only; omega, by simp only; omega, by simp only; omega⟩
  have hwindow : (canvas.bitmap.window x y bitmap.width bitmap.height).width = bitmap.width ∧
      (canvas.bitmap.window x y bitmap.width bitmap.height).height = bitmap.height :=
    ⟨Bitmap.width_window .., Bitmap.height_window ..⟩
  have hregion := Refinement.decodeRegion_encodeRegion hinfo
    (Refinement.writable_nominal options.template options.skipsPixels) rfl rfl hwindow hsize
  obtain ⟨p, hp, hbitmap, hheight⟩ := h.openPage canvas rfl
  have hpage : (e.segmentOf (.region .refinement .immediateLossless) canvas.number []
    (Encoder.refinementData bitmap x y options canvas)).header.page = canvas.number := rfl
  obtain ⟨b, hplace, hb⟩ := (h.setPage hbitmap hheight).place settings hpage
    ⟨bitmap.width, bitmap.height, x, y, options.operator⟩ hx hy bitmap
  have hreference := reference_eq settings (e.segmentOf (.region .refinement .immediateLossless)
    canvas.number [] (Encoder.refinementData bitmap x y options canvas)) hp hheight rfl
    (Refinement.encodeRegion_starts ..) hinfo hx hy hsize
  rw [hbitmap] at hreference
  refine h.process ?_ hb
  unfold Assembly.decode Assembly.decodeRegion Assembly.decodeRefinement
  simp only [Bind.bind, Except.bind, hreference]
  simp only [Encoder.segmentOf, page_eq_ok.mpr hp, Encoder.refinementData, hregion]
  exact hplace

/-- A refinement that doesn't fail ends in the range of coordinates. -/
theorem ends_of_refinement (h : Mirrors (some canvas) ended dictionaries a)
    {options : RefinementOptions}
    (hinfo : RegionInfo.Fits ⟨bitmap.width, bitmap.height, x, y, options.operator⟩)
    (hclean : (a.process settings none (e.segmentOf (.region .refinement .immediateLossless)
      canvas.number [] (Encoder.refinementData bitmap x y options canvas))).failures = #[]) :
    x + bitmap.width ≤ 0xFFFFFFFF ∧ y + bitmap.height ≤ 0xFFFFFFFF := by
  obtain ⟨b, hb⟩ := h.exists_decode hclean
  obtain ⟨p, -, hb⟩ := bind_eq_ok.mp hb
  obtain ⟨⟨reference, a'⟩, hreference, -⟩ := bind_eq_ok.mp hb
  have hreferred : (e.segmentOf (.region .refinement .immediateLossless) canvas.number []
    (Encoder.refinementData bitmap x y options canvas)).header.referred = [] := rfl
  have hdata := Refinement.encodeRegion_starts
    ⟨bitmap.width, bitmap.height, x, y, options.operator⟩
    { template := options.template, skipsPixels := options.skipsPixels }
    (canvas.bitmap.window x y bitmap.width bitmap.height) bitmap
  exact ends_of_reference hreferred hdata hinfo hreference

/-- The symbols of dictionaries that were written are found again. -/
theorem gather (h : Mirrors page ended dictionaries a) {used : List WrittenDictionary}
    (hused : ∀ d ∈ used, d ∈ dictionaries) :
    ∃ last, SymbolInputs.gather (a.stores none) (used.map (·.segment)) =
      .ok ⟨Encoder.symbolsOf used, [], last⟩ := by
  have hlookup : ∀ d ∈ used, Store.lookup d.segment (a.stores none) =
      .ok (.dictionary ⟨d.symbols, none⟩) := fun d hd => by
    have hget : a.store.get? d.segment = some (.dictionary ⟨d.symbols, none⟩) := by
      unfold Store.get?
      rw [h.stored d (hused d hd)]
    unfold Assembly.stores Store.lookup
    rw [hget]
  suffices hfold : ∀ inputs : SymbolInputs, inputs.tables = [] → ∃ last,
      (used.map (·.segment)).foldlM (fun inputs number => do
        SymbolInputs.add inputs number (← Store.lookup number (a.stores none))) inputs =
      .ok ⟨used.foldl (fun symbols d => symbols ++ d.symbols) inputs.symbols, [], last⟩ from
    hfold {} rfl
  clear hused
  induction used with
  | nil =>
    rintro ⟨symbols, tables, last⟩ rfl
    exact ⟨last, rfl⟩
  | cons d used ih =>
    intro inputs htables
    let next : SymbolInputs :=
      ⟨inputs.symbols ++ d.symbols, inputs.tables, some (d.segment, ⟨d.symbols, none⟩)⟩
    obtain ⟨last, hlast⟩ := ih (fun d' hd => hlookup d' (List.mem_cons_of_mem _ hd)) next htables
    refine ⟨last, ?_⟩
    rw [List.map_cons, List.foldlM_cons, hlookup d List.mem_cons_self]
    exact hlast

/-- Instances of symbols of dictionaries that were written. -/
theorem text (h : Mirrors (some canvas) ended dictionaries a) {used : List WrittenDictionary}
    (hused : ∀ d ∈ used, d ∈ dictionaries) {info : RegionInfo} {instances : List Text.Placement}
    {logStrips : Nat} {data : Bytes}
    (hdata : Text.encodeRegion info (Encoder.symbolsOf used) instances logStrips = .ok data)
    (hx : info.x + info.width ≤ 0xFFFFFFFF) (hy : info.y + info.height ≤ 0xFFFFFFFF)
    (hsize : info.width * info.height ≤ settings.maxPixelCount)
    (hsymbols : Text.Sided (Encoder.symbolsOf used))
    (hinstances : ∀ p ∈ instances, FitsSigned p.x ∧ FitsSigned p.y)
    (hlegible : Text.Legible (Encoder.symbolsOf used) instances logStrips) :
    Mirrors (some { canvas with
      bitmap := canvas.bitmap.combine
        (Encoder.drawInstances (Encoder.symbolsOf used) instances (.blank info.width info.height))
        info.x info.y info.operator }) ended dictionaries
      (a.process settings none (e.segmentOf (.region .text .immediateLossless) canvas.number
        (used.map (·.segment)) data)) := by
  have hinfo : info.Fits := ⟨by omega, by omega, by omega, by omega⟩
  have hregion := Text.decodeRegion_encodeRegion hinfo hsize hsymbols hinstances hlegible hdata
  obtain ⟨last, hgather⟩ := h.gather hused
  obtain ⟨p, hp, hbitmap, hheight⟩ := h.openPage canvas rfl
  let layout : TextLayout := ⟨e.nextSegment, info.x, info.y,
    (instances.mergeSort (Text.comesBefore logStrips)).toArray⟩
  have hpage : (e.segmentOf (.region .text .immediateLossless) canvas.number
    (used.map (·.segment)) data).header.page = canvas.number := rfl
  obtain ⟨b, hplace, hb⟩ := (h.setPage (p := p.addLayout layout) hbitmap hheight).place settings
    hpage info hx hy
    (Encoder.drawInstances (Encoder.symbolsOf used) instances (.blank info.width info.height))
  refine h.process ?_ hb
  unfold Assembly.decode Assembly.decodeRegion Assembly.decodeText Assembly.addLayout
  simp only [Encoder.segmentOf, page_eq_ok.mpr hp, hgather, hregion, Bind.bind, Except.bind]
  exact hplace

/-- A text region that doesn't fail ends in the range of coordinates, and its instances can be
read. -/
theorem legible_of_text (h : Mirrors (some canvas) ended dictionaries a)
    {used : List WrittenDictionary} (hused : ∀ d ∈ used, d ∈ dictionaries) {info : RegionInfo}
    {instances : List Text.Placement} {logStrips : Nat} {data : Bytes}
    (hdata : Text.encodeRegion info (Encoder.symbolsOf used) instances logStrips = .ok data)
    (hinfo : info.Fits) (hsize : info.width * info.height ≤ settings.maxPixelCount)
    (hsymbols : Text.Sided (Encoder.symbolsOf used))
    (hinstances : ∀ p ∈ instances, FitsSigned p.x ∧ FitsSigned p.y)
    (hclean : (a.process settings none (e.segmentOf (.region .text .immediateLossless)
      canvas.number (used.map (·.segment)) data)).failures = #[]) :
    (info.x + info.width ≤ 0xFFFFFFFF ∧ info.y + info.height ≤ 0xFFFFFFFF) ∧
      Text.Legible (Encoder.symbolsOf used) instances logStrips := by
  obtain ⟨last, hgather⟩ := h.gather hused
  obtain ⟨b, hb⟩ := h.exists_decode hclean
  obtain ⟨p, -, hb⟩ := bind_eq_ok.mp hb
  obtain ⟨inputs, hinputs, hb⟩ := bind_eq_ok.mp hb
  obtain rfl := Except.ok.inj (hgather.symm.trans hinputs)
  obtain ⟨decoded, hdecoded, hb⟩ := bind_eq_ok.mp hb
  obtain ⟨a', -, hb⟩ := bind_eq_ok.mp hb
  have hlegible := Text.legible_of_decodeRegion hinfo hsize hsymbols hinstances hdata hdecoded
  have hregion := Text.decodeRegion_encodeRegion hinfo hsize hsymbols hinstances hlegible hdata
  obtain rfl := Except.ok.inj (hregion.symm.trans hdecoded)
  exact ⟨ends_of_place hb, hlegible⟩

end

/-! ## Dictionaries and tables -/

section

variable {e : Encoder} {number : Nat}

/-- A symbol dictionary. -/
theorem dictionary (h : Mirrors page ended dictionaries a) {symbols : List Bitmap}
    {exports : List Bool} {coding : Symbol.Coding} {encoded : Symbol.Encoded}
    (hencode : Symbol.encode symbols exports coding = .ok encoded)
    (hstorable : Symbol.Storable symbols) (hsettings : 0x40000000 ≤ settings.maxPixelCount)
    (hnew : ∀ d ∈ dictionaries, d.segment ≠ e.nextSegment) :
    Mirrors page ended
      (dictionaries ++ [Encoder.dictionaryOf e.nextSegment symbols encoded])
      (a.process settings none (e.segmentOf .symbolDictionary number [] encoded.data)) := by
  have hdecode := Symbol.decode_encode hstorable hsettings hencode
  let stored := a.store.dictionaries.insert e.nextSegment
    ⟨(Encoder.dictionaryOf e.nextSegment symbols encoded).symbols, none⟩
  refine h.process (b := { a with store := { a.store with dictionaries := stored } }) ?_ ?_
  · unfold Assembly.decode Assembly.addDictionary SymbolInputs.gather
    simp only [Encoder.segmentOf, List.foldlM_nil, pure, Except.pure, Bind.bind, Except.bind,
      hdecode]
    rfl
  · refine ⟨h.failures, h.failedPages, h.openPage, h.noOther, h.numbers, h.bitmaps,
      fun d hd => ?_, fun n hn => ?_⟩
    · refine Numbered.get?_insert.trans ?_
      rcases List.mem_append.mp hd with hd | hd
      · rw [if_neg (hnew d hd), h.stored d hd]
      · obtain rfl := List.mem_singleton.mp hd
        exact if_pos rfl
    · have hne := hn _ (List.mem_append_right _ (List.mem_singleton_self _))
      refine (Numbered.get?_insert_of_ne (Ne.symm hne)).trans ?_
      exact h.notStored n fun d hd => hn d (List.mem_append_left _ hd)

/-- A table. -/
theorem table (h : Mirrors page ended dictionaries a) {t : Huffman.CodeTable} {data : Bytes}
    (hwrite : t.write = .ok data) (hlow : FitsSigned (t.low - 1)) (hlow' : FitsSigned t.low)
    (hbuild : ∃ table, Huffman.Table.build t.lines = .ok table) :
    Mirrors page ended dictionaries
      (a.process settings none (e.segmentOf .tables number [] data)) := by
  obtain ⟨table, htable⟩ := hbuild
  have hread := (Huffman.Table.read_write hwrite hlow hlow').trans htable
  let stored := a.store.tables.insert e.nextSegment table
  refine h.process (b := { a with store := { a.store with tables := stored } }) ?_ ⟨h.failures,
    h.failedPages, h.openPage, h.noOther, h.numbers, h.bitmaps, h.stored, h.notStored⟩
  unfold Assembly.decode Assembly.addTable
  simp only [Encoder.segmentOf, hread, Bind.bind, Except.bind]
  rfl

/-- A table that doesn't fail has a value below the bounded ones, and code words. -/
theorem readable_of_table (h : Mirrors page ended dictionaries a) {t : Huffman.CodeTable}
    {data : Bytes} (hwrite : t.write = .ok data) (hlow : FitsSigned t.low)
    (hclean : (a.process settings none (e.segmentOf .tables number [] data)).failures = #[]) :
    FitsSigned (t.low - 1) ∧ (Huffman.Table.build t.lines).isOk := by
  obtain ⟨b, hb⟩ := h.exists_decode hclean
  obtain ⟨table, hread, -⟩ := bind_eq_ok.mp hb
  obtain ⟨hbelow, hbuild⟩ := Huffman.Table.readable_of_read hwrite hlow hread
  exact ⟨hbelow, hbuild ▸ rfl⟩

end

end Mirrors
end Bilevel

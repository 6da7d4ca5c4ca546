import Bilevel.Document.Decode
import Bilevel.Proofs.Encoder.Legible
import Bilevel.Proofs.Encoder.Mirror

/-!
# Decoding what a session wrote

Whatever an encoder is told to do, as long as the arguments stay within bounds, decoding gives back
the pages as the encoder drew them and the dictionaries as it wrote them.

## Main definitions

* `Session.Sound` — the segments that a session wrote, and what decoding makes of them.

## Main results

* `Session.Legible.of_admissible` — within bounds, calls write what can be read.
* `Session.Sound.effect`, `Session.Sound.run` — such calls keep a session sound.
* `Session.decode_finish` — the pages and dictionaries of a session survive encoding and decoding.
-/

namespace Bilevel.Encoder

open Assembly

/-- What comes of segments. -/
def assemble (settings : DecodeSettings) (segments : List Segment) : Assembly :=
  segments.foldl (Assembly.process settings none) {}

variable (settings : DecodeSettings) in
/-- Segments that don't end the stream are dealt with one after another. -/
theorem run_append {segments : List Segment} (h : ∀ t ∈ segments, t.header.kind ≠ .endOfFile)
    (a : Assembly) (items : List StreamItem) :
    Assembly.run settings none a (segments.map .segment ++ items) =
      Assembly.run settings none (segments.foldl (Assembly.process settings none) a) items := by
  induction segments generalizing a with
  | nil => rfl
  | cons segment segments ih =>
    have hends : a.ends segment = false := by
      simp [Assembly.ends, h segment List.mem_cons_self]
    rw [List.map_cons, List.cons_append, Assembly.run, hends]
    exact ih (fun t ht => h t (List.mem_cons_of_mem _ ht)) _

/-! ## Bounds -/

section

variable {s s' : Session} {segments new : List Segment} {call : Call}

/-- The symbols of dictionaries leave room for coordinates. -/
def Roomy (dictionaries : List WrittenDictionary) : Prop :=
  ∀ d ∈ dictionaries, ∀ symbol ∈ d.symbols, Small symbol

theorem Roomy.effect (h : Roomy s.dictionaries) (heffect : Effect s call s' new)
    (hrange : call.InRange s) : Roomy s'.dictionaries := by
  induction heffect with
  | refused | empty | noPage | ended | generic | refinement | text | codeTable => exact h
  | closed _ ih | opened _ _ _ _ _ ih => exact ih trivial
  | dictionary =>
    intro d hd symbol hsymbol
    rcases List.mem_append.mp hd with hd | hd
    · exact h d hd symbol hsymbol
    · obtain rfl := List.mem_singleton.mp hd
      exact hrange.2 symbol (mem_dictionaryOf hsymbol)

/-- Where a bounded region starts. -/
theorem Bounded.place_le {width height x y : Nat} (h : Bounded width height x y) :
    x ≤ 0xFFFFFFFF ∧ y ≤ 0xFFFFFFFF :=
  ⟨(Nat.le_add_right x width).trans h.right, (Nat.le_add_right y height).trans h.bottom⟩

theorem Near.fitsSigned {n : Int} (h : Near n) : FitsSigned n := by
  unfold Near at h
  unfold FitsSigned
  omega

namespace Call.InRange

/-- Calls whose arguments stay within bounds are given nothing too large, -/
theorem sized (h : call.InRange s) : call.Sized s := by
  cases call with
  | startPage | endPage => exact h
  | generic => exact ⟨h.1.pixels, h.1.place_le, h.2⟩
  | refinement => exact ⟨Bounded.pixels h, Bounded.place_le h⟩
  | dictionary => exact h.1
  | codeTable => exact h.1.2
  | text =>
    exact ⟨h.1.pixels, h.1.place_le, h.2.1, fun p hp =>
      ⟨(h.2.2 p hp).1.fitsSigned, (h.2.2 p hp).2.fitsSigned⟩⟩

/-- and what they write can be read. -/
theorem readable (h : call.InRange s) (hroomy : Roomy s.dictionaries)
    (haccepted : call.accepted s.encoder = true) : call.Readable := by
  cases call with
  | startPage | endPage | dictionary => trivial
  | generic => exact ⟨h.1.right, h.1.bottom⟩
  | refinement => exact ⟨Bounded.right h, Bounded.bottom h⟩
  | codeTable => exact ⟨h.1.1, h.2⟩
  | text used instances info logStrips =>
    obtain ⟨hbounded, ⟨hused, -⟩, hnear⟩ := h
    refine ⟨⟨hbounded.right, hbounded.bottom⟩, ?_⟩
    rcases addText_cases used instances info logStrips s.encoder with ⟨error, hrun⟩ |
      ⟨canvas, data, after, -, -, hencode, -⟩
    · have hok : ((addText used instances info logStrips).run s.encoder).1.isOk = true := haccepted
      rw [hrun] at hok
      exact absurd hok Bool.false_ne_true
    · obtain ⟨f, hstreamed, -⟩ := Text.encodeRegion_cases hencode
      refine Text.legible_of_near hstreamed.log (fun symbol hsymbol => ?_) hnear
      obtain ⟨d, hd, hmem⟩ := mem_symbolsOf.mp hsymbol
      exact (hroomy d (hused d hd) symbol hmem).1

end Call.InRange

/-- This goes for any number of calls. -/
theorem Session.Legible.of_admissible (h : s.Legible segments) (hroomy : Roomy s.dictionaries)
    {calls : List Call} (hcalls : s.Admissible calls) : s.Sized calls ∧ s.Readable calls := by
  induction calls generalizing s segments with
  | nil => exact ⟨trivial, trivial⟩
  | cons call calls ih =>
    obtain ⟨⟨hrange, hdata⟩, hcalls⟩ := hcalls
    obtain ⟨new, heffect⟩ := h.exists_effect call
    obtain ⟨hsized, hreadable⟩ :=
      ih (h.effect heffect hrange.sized hdata) (hroomy.effect heffect hrange) hcalls
    exact ⟨⟨⟨hrange.sized, hdata⟩, hsized⟩, hrange.readable hroomy, hreadable⟩

end

/-! ## What decoding makes of calls -/

namespace Session

/-- The segments that a session wrote can be found again, and decoding makes of them what the
session has. -/
structure Sound (settings : DecodeSettings) (s : Session) (segments : List Segment) : Prop
    extends s.Legible segments where
  mirrors : Mirrors s.encoder.page s.ended s.dictionaries (assemble settings segments)

variable {settings : DecodeSettings} {s s' : Session} {segments new : List Segment} {call : Call}
  {a : Assembly}

/-- A region of moderate size can be described. -/
theorem fits_info {info : RegionInfo} (hpos : info.width ≠ 0 ∧ info.height ≠ 0)
    (hsize : info.width * info.height ≤ 0x40000000)
    (hplace : info.x ≤ 0xFFFFFFFF ∧ info.y ≤ 0xFFFFFFFF) : info.Fits := by
  have hwidth := (Nat.le_mul_of_pos_right _ (Nat.pos_of_ne_zero hpos.2)).trans hsize
  have hheight := (Nat.le_mul_of_pos_left _ (Nat.pos_of_ne_zero hpos.1)).trans hsize
  exact ⟨by omega, by omega, by omega, by omega⟩

theorem Counted.sided_symbolsOf (h : s.Counted) {used : List WrittenDictionary}
    (hused : ∀ d ∈ used, d ∈ s.dictionaries) : Text.Sided (symbolsOf used) := by
  intro symbol hsymbol
  obtain ⟨d, hd, hmem⟩ := mem_symbolsOf.mp hsymbol
  exact h.sides d (hused d hd) symbol hmem

/-- Decoding makes of the segments that a call writes what the call makes of the session. -/
theorem Counted.mirrors_effect (h : s.Counted)
    (hmirrors : Mirrors s.encoder.page s.ended s.dictionaries a) (heffect : Effect s call s' new)
    (hsettings : 0x40000000 ≤ settings.maxPixelCount) (hsized : call.Sized s)
    (hreadable : call.accepted s.encoder = true → call.Readable) :
    Mirrors s'.encoder.page s'.ended s'.dictionaries
      (new.foldl (Assembly.process settings none) a) := by
  induction heffect with
  | refused | empty | noPage => exact hmirrors
  | closed _ ih => exact ih trivial fun _ => trivial
  | ended hpage =>
    rw [hpage] at hmirrors
    exact hmirrors.endPage (h.canvas_number hpage) rfl rfl
  | @opened width height between new _ hpage hpos _ _ ih =>
    have hbetween := ih trivial fun _ => trivial
    rw [hpage] at hbetween
    have hkind : (between.encoder.pageSegment width height).header.kind = .pageInformation := rfl
    rw [List.foldl_append]
    exact hbetween.startPage hpos hsized hsettings hkind rfl
  | generic haccepted _ hallowed hdrew =>
    obtain ⟨hpixels, -, hfits⟩ := hsized
    obtain ⟨hright, hbottom⟩ := hreadable haccepted
    rw [hdrew.page] at hmirrors
    rw [hdrew.eq]
    exact hmirrors.generic hright hbottom (hpixels.trans hsettings)
      (writable_codingOf hallowed hfits)
  | refinement haccepted _ hdrew =>
    obtain ⟨hright, hbottom⟩ := hreadable haccepted
    rw [hdrew.page] at hmirrors
    rw [hdrew.eq]
    exact hmirrors.refinement hright hbottom (hsized.1.trans hsettings)
  | text haccepted _ hencode hdrew =>
    obtain ⟨hpixels, -, ⟨hused, -⟩, hinstances⟩ := hsized
    obtain ⟨⟨hright, hbottom⟩, hlegible⟩ := hreadable haccepted
    rw [hdrew.page] at hmirrors
    rw [hdrew.eq]
    exact hmirrors.text hused hencode hright hbottom (hpixels.trans hsettings)
      (h.sided_symbolsOf hused) hinstances hlegible
  | dictionary hencode =>
    have hnew : ∀ d ∈ s.dictionaries, d.segment ≠ s.encoder.nextSegment := fun d hd =>
      Nat.ne_of_lt (h.earlier d hd)
    exact hmirrors.dictionary hencode hsized hsettings hnew
  | codeTable haccepted hwrite =>
    obtain ⟨hbelow, hbuild⟩ := hreadable haccepted
    exact hmirrors.table hwrite hbelow hsized (exists_of_isOk hbuild)

namespace Sound

variable (settings) in
theorem start {first : Nat} (h : first ≤ 0xFFFFFFFF) : Sound settings (start first) [] :=
  ⟨.start h, .empty⟩

/-- A call keeps a session sound, whether it is refused or writes what can be read. -/
theorem effect (h : Sound settings s segments) (heffect : Effect s call s' new)
    (hsettings : 0x40000000 ≤ settings.maxPixelCount) (hsized : call.Sized s)
    (hdata : ∀ data ∈ call.data? s.encoder, data.size < 0xFFFFFFFF)
    (hreadable : call.accepted s.encoder = true → call.Readable) :
    Sound settings s' (segments ++ new) := by
  refine ⟨h.toLegible.effect heffect hsized hdata, ?_⟩
  rw [assemble, List.foldl_append]
  exact h.mirrors_effect h.mirrors heffect hsettings hsized hreadable

/-- So do any number of calls. -/
theorem run (h : Sound settings s segments) (hsettings : 0x40000000 ≤ settings.maxPixelCount)
    {calls : List Call} (hsized : s.Sized calls) (hreadable : s.Readable calls) :
    ∃ more, Sound settings (s.run calls) (segments ++ more) := by
  induction calls generalizing s segments with
  | nil => exact ⟨[], (List.append_nil segments).symm ▸ h⟩
  | cons call calls ih =>
    obtain ⟨⟨hcall, hdata⟩, hsized⟩ := hsized
    obtain ⟨hread, hreadable⟩ := hreadable
    obtain ⟨new, heffect⟩ := h.exists_effect call
    obtain ⟨more, hrun⟩ := ih (h.effect heffect hsettings hcall hdata hread) hsized hreadable
    exact ⟨new ++ more, List.append_assoc segments new more ▸ hrun⟩

/-- The end of a page keeps a session sound. -/
theorem endPage (h : Sound settings s segments) (hsettings : 0x40000000 ≤ settings.maxPixelCount) :
    ∃ more, Sound settings (s.step .endPage) (segments ++ more) := by
  obtain ⟨new, heffect⟩ := h.exists_effect .endPage
  exact ⟨new, h.effect heffect hsettings trivial (by simp [Call.data?]) fun _ => trivial⟩

end Sound

/-! ## Documents -/

section

variable {settings : DecodeSettings} {s : Session} {segments : List Segment}

/-- The document that comes of segments. -/
def documentOf (a : Assembly) : Document := ⟨a.pages, a.failures, a.store.dictionaries⟩

/-- At the end of a stream, a document is complete if nothing has failed and no page is open. -/
theorem check_documentOf {ended : List Bitmap} {dictionaries : List WrittenDictionary}
    {a : Assembly} (h : Mirrors none ended dictionaries a) :
    (documentOf a.endAll).check = .ok (documentOf a) := by
  have hnone : a.openNumbers = [] := by
    rw [List.eq_nil_iff_forall_not_mem]
    intro n hn
    have hmem := mem_openNumbers.mp hn
    rw [Std.ExtTreeMap.mem_iff_isSome_getElem?, h.noOther n (fun _ hc => absurd hc (by simp))]
      at hmem
    exact absurd hmem Bool.false_ne_true
  have hend : a.endAll = a := by
    unfold endAll
    rw [hnone]
    rfl
  rw [hend]
  unfold Document.check documentOf
  rw [h.failures]
  simp

variable (settings) in
/-- Decoding what a session wrote is dealing with its segments. -/
theorem Legible.decode_written (h : s.Legible segments) :
    decode settings none s.encoder.written =
      (documentOf (assemble settings segments).endAll).check := by
  have hrun := run_append settings h.kinds {} []
  rw [List.append_nil] at hrun
  unfold decode Document.ofItems
  rw [h.written, Stream.embedded_bytesOf h.findable h.kinds]
  dsimp only [Option.map_none]
  rw [hrun]
  rfl

/-- Decoding the stream of a session whose pages have all ended. -/
theorem Sound.decode_written (h : Sound settings s segments) (hpage : s.encoder.page = none) :
    decode settings none s.encoder.written = .ok (documentOf (assemble settings segments)) := by
  have hmirrors := h.mirrors
  rw [hpage] at hmirrors
  exact (h.toLegible.decode_written settings).trans (check_documentOf hmirrors)

/-- The segment that ends a file. -/
def lastSegment (e : Encoder) : Segment := ⟨endOfFile e.nextSegment, #[]⟩

theorem findable_lastSegment {e : Encoder} (h : e.nextSegment ≤ 0xFFFFFFFF) :
    (lastSegment e).Findable := by
  have hcoherent : (lastSegment e).Coherent := ⟨h, Nat.zero_le _, rfl, rfl, rfl⟩
  have hdata : (#[] : Bytes).size < 0xFFFFFFFF := by decide
  have hcount : ([] : List Nat).length < 2 ^ 29 := by decide
  exact hcoherent.findable hdata hcount

/-- Decoding the file of a session whose pages have all ended. -/
theorem decodeFile_written (h : Sound settings s segments) (hpage : s.encoder.page = none) :
    decodeFile settings ((FileHeader.mk .sequential (some s.encoder.pageCount)).bytes ++
      (s.encoder.written ++ (lastSegment s.encoder).bytes)) =
        .ok (documentOf (assemble settings segments)) := by
  have hmirrors := h.mirrors
  rw [hpage] at hmirrors
  generalize hlast : lastSegment s.encoder = last
  have hkind : last.header.kind = .endOfFile := hlast ▸ rfl
  have hdecode : (assemble settings segments).decode settings none last =
      .ok (assemble settings segments) := by
    unfold Assembly.decode
    rw [hkind]
  have hprocess := hmirrors.process_decode hdecode
  have hrun : (Assembly.run settings none {} (segments.map .segment ++ [.segment last])) =
      ((assemble settings segments).process settings none last).endAll := by
    rw [run_append settings h.kinds, Assembly.run]
    split <;> rfl
  unfold decodeFile
  rw [h.written, Stream.file_bytesOf h.findable h.kinds (hlast ▸ findable_lastSegment h.next_le)
    hkind h.pageCount_le]
  simp only [Bind.bind, Except.bind]
  unfold Document.ofItems
  dsimp only [Option.map_none]
  rw [hrun, hprocess]
  exact check_documentOf (hmirrors.noteDecoded _)

/-- A document has the pages of a session and its dictionaries, and nothing else. -/
structure Complete (s : Session) (document : Document) : Prop where
  failures : document.failures = #[]
  numbers : document.pages.toList.map (·.number) = List.range' 1 document.pages.size
  bitmaps : document.pages.toList.map (·.bitmap) = s.ended ++ s.encoder.pageBitmap?.toList
  dictionaries : ∀ d ∈ s.dictionaries,
    (document.symbolDictionary? d.segment).map (·.symbols) = some d.symbols
  noOther : ∀ n, (∀ d ∈ s.dictionaries, d.segment ≠ n) → document.symbolDictionary? n = none

theorem complete_documentOf {a : Assembly}
    (h : Mirrors none (s.ended ++ s.encoder.pageBitmap?.toList) s.dictionaries a) :
    s.Complete (documentOf a) where
  failures := h.failures
  numbers := by
    have hsize : a.pages.size = (s.ended ++ s.encoder.pageBitmap?.toList).length := by
      rw [← h.bitmaps, List.length_map, Array.length_toList]
    unfold documentOf
    dsimp only
    rw [hsize]
    exact h.numbers
  bitmaps := h.bitmaps
  dictionaries d hd := congrArg (Option.map (·.symbols)) (h.stored d hd)
  noOther := h.notStored

theorem toFile_eq (e : Encoder) : e.toFile =
    (FileHeader.mk .sequential (some (endPage.run e).2.pageCount)).bytes ++
      ((endPage.run e).2.written ++ (lastSegment (endPage.run e).2).bytes) := by
  unfold toFile
  dsimp only
  rw [FileHeader.write_eq, SegmentHeader.write_eq]
  simp [Writer.writeBytes, Writer.empty, lastSegment, Segment.bytes, Array.append_assoc]

/-- The pages of a session and its dictionaries survive encoding and decoding, as a stream and as a
file. -/
theorem decode_finish (hsettings : 0x40000000 ≤ settings.maxPixelCount) {first : Nat}
    (hfirst : first ≤ 0xFFFFFFFF) {calls : List Call} (hcalls : (start first).Admissible calls) :
    let s := (start first).run calls
    ∃ document, decode settings none s.encoder.finish = .ok document ∧
      decodeFile settings s.encoder.toFile = .ok document ∧ s.Complete document := by
  obtain ⟨hsized, hreadable⟩ := (Legible.start hfirst).of_admissible
    (fun _ hd => absurd hd List.not_mem_nil) hcalls
  obtain ⟨written, hrun⟩ := (Sound.start settings hfirst).run hsettings hsized hreadable
  generalize (start first).run calls = s at hrun
  obtain ⟨last, hsound⟩ := hrun.endPage hsettings
  rw [step_endPage] at hsound
  have hpage := page_endPage s.encoder
  have hmirrors := hsound.mirrors
  rw [hpage] at hmirrors
  have hdecode := hsound.decode_written hpage
  have hfile := decodeFile_written hsound hpage
  dsimp only
  rw [toFile_eq]
  exact ⟨_, hdecode, hfile, complete_documentOf hmirrors⟩

/-- A dictionary, and a page on which its symbol is drawn before a call is refused and the next page
starts. -/
theorem decode_finish_text :
    let dot : Bitmap := .blank 1 1
    let calls : List Call := [.dictionary [dot] .codes none, .startPage 3 2,
      .text [⟨0, #[dot], [0], [0]⟩] [⟨0, 1, 1⟩] ⟨3, 2, 0, 0, .or⟩ 0, .startPage 0 1, .startPage 2 2]
    let s := (start 0).run calls
    (start 0).Admissible calls ∧
      ∃ document, decode {} none s.encoder.finish = .ok document ∧
        decodeFile {} s.encoder.toFile = .ok document ∧ s.Complete document := by
  intro dot calls s
  have hcalls : (start 0).Admissible calls := by decide +kernel
  exact ⟨hcalls, decode_finish (by decide) (by decide) hcalls⟩

end

end Session
end Bilevel.Encoder

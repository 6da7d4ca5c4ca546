import Bilevel.Proofs.Trace.Document

/-!
# The pixel limit

No bitmap has more pixels than the settings allow. Where a bitmap is made or grows, its size is
checked first, and so the limit also holds for bitmaps of which nothing comes, because what they are
made for can't be decoded in the end. What is decoded into a bitmap afterwards leaves its size alone.

## Main definitions

* `Tracing.MakesWithin` — a computation makes no bitmap beyond the limit.
* `DecodeSettings.Limits` — the limit is kept wherever regions and symbols make bitmaps.

## Main results

* `pixels_within_limit` — the limit holds everywhere.
-/

namespace Bilevel

/-- Every bitmap that is made, or grows, has at most `maxPixels` pixels, whether the computation
succeeds in the end or not. -/
def Tracing.MakesWithin {α : Type} (maxPixels : Nat) (m : Tracing α) : Prop :=
  ∀ width height, .made width height ∈ events m → width * height ≤ maxPixels

theorem Traces.makesWithin {α : Type} {maxPixels : Nat} {m : Tracing α}
    {x : Except DecodeError α} (h : Traces (Event.Sound maxPixels) m x) :
    m.MakesWithin maxPixels :=
  fun _ _ hmade => h.events _ hmade

/-! ## Regions and symbols -/

/-- The limit is kept wherever regions and symbols make bitmaps. -/
structure DecodeSettings.Limits (settings : DecodeSettings) : Prop where
  generic {data : Bytes} {openLength : Bool} {region : Region}
    (h : Generic.decodeRegion settings data openLength = .ok region) :
    region.bitmap.Within settings.maxPixelCount
  refinement {data : Bytes} {reference : Bitmap} {region : Region}
    (h : Refinement.decodeRegion settings data reference = .ok region) :
    region.bitmap.Within settings.maxPixelCount
  text {data : Bytes} {symbols : Array Bitmap} {tables : List Huffman.Table} {decoded : TextRegion}
    (h : Text.decodeRegion settings data symbols tables = .ok decoded) :
    decoded.region.bitmap.Within settings.maxPixelCount
  /-- A refined instance of a symbol in a text region. -/
  refinedInstance {header : Text.Header} {r r' : Reader}
    (hheader : Text.Header.read settings r = .ok (header, r')) {symbol bitmap : Bitmap}
    {s s' : Source} (h : Text.readRefinedInstance header.params symbol s = .ok (bitmap, s')) :
    bitmap.Within settings.maxPixelCount
  /-- A refined instance of a symbol in another symbol. -/
  part {style : Symbol.Style} {symbol bitmap : Bitmap} {s s' : Source}
    (h : Text.readRefinedInstance (style.instances settings) symbol s = .ok (bitmap, s')) :
    bitmap.Within settings.maxPixelCount
  plain {style : Symbol.Style} {width height : Nat} {bitmap : Bitmap} {s s' : Source}
    (h : Symbol.readPlain settings style width height s = .ok (bitmap, s')) :
    bitmap.Within settings.maxPixelCount
  aggregate {style : Symbol.Style} {symbols : Array Bitmap} {width height : Nat} {bitmap : Bitmap}
    {s s' : Source}
    (h : Symbol.readAggregate settings style symbols width height s = .ok (bitmap, s')) :
    bitmap.Within settings.maxPixelCount
  /-- The symbols of a class side by side, where they come so. -/
  collective {style : Symbol.Style} {width height : Nat} {bitmap : Bitmap} {s s' : Source}
    (hcollects : Symbol.collects style s = true)
    (h : Symbol.readCollective settings width height s = .ok (bitmap, s')) :
    bitmap.Within settings.maxPixelCount
  /-- Whatever bitmaps are made for a generic region, even if it can't be decoded in the end. -/
  genericMakes (data : Bytes) (openLength : Bool) :
    (Generic.decodeRegionTraced settings data openLength).MakesWithin settings.maxPixelCount
  /-- Whatever bitmaps are made for a refinement region. -/
  refinementMakes (data : Bytes) {reference : Bitmap}
    (hreference : reference.Within settings.maxPixelCount) :
    (Refinement.decodeRegionTraced settings data reference).MakesWithin settings.maxPixelCount
  /-- Whatever bitmaps are made for a text region, its refined instances among them. -/
  textMakes (data : Bytes) {symbols : Array Bitmap}
    (hsymbols : Symbol.AllWithin settings.maxPixelCount symbols) (tables : List Huffman.Table) :
    (Text.decodeRegionTraced settings data symbols tables).MakesWithin settings.maxPixelCount
  /-- Whatever bitmaps are made for a symbol that is composed of others. -/
  aggregateMakes {style : Symbol.Style} (hat : style.refinement.atPixels.Fits)
    {symbols : Array Bitmap} (hsymbols : Symbol.AllWithin settings.maxPixelCount symbols)
    (width height : Nat) (s : Source) :
    Tracing.MakesWithin settings.maxPixelCount
      (Symbol.readAggregateTraced settings style symbols width height s)
  /-- Whatever bitmaps are made for a dictionary and its symbols, cut from one or not. -/
  dictionaryMakes (data : Bytes) {input : Array Bitmap}
    (hinput : Symbol.AllWithin settings.maxPixelCount input) (tables : List Huffman.Table)
    (last : Option (Nat × SymbolDictionary)) :
    (Symbol.decodeTraced settings data input tables last).MakesWithin settings.maxPixelCount
  /-- Whatever pixels the instances of a text region are read into, even if the region can't be
  decoded in the end. -/
  instances {header : Text.Header} {r r' : Reader}
    (hheader : Text.Header.read settings r = .ok (header, r')) (generic : Option Template)
    (symbols : Array Bitmap) (region : Bitmap) :
    MadeOf (Source.Read.Suits settings.maxPixelCount generic header.params.style.template)
      (Text.decodeInstances header.params symbols header.count region)
  /-- Whatever pixels the symbols of a dictionary are read into, even if the dictionary can't be
  decoded in the end. -/
  symbols (header : Symbol.Header) (input : Array Bitmap) (limit : Nat) :
    MadeOf (Source.Read.Suits settings.maxPixelCount (some header.style.template)
      header.style.refinement.template) (Symbol.readSymbols settings header input limit)

theorem DecodeSettings.limits (settings : DecodeSettings) : settings.Limits where
  generic h := (Generic.made_of_decodeRegion h).within
  refinement h := (Refinement.made_of_decodeRegion h).within
  text h := (Text.made_of_decodeRegion h).within
  refinedInstance hheader := by
    intro symbol bitmap s s' h
    rw [← Text.maxPixelCount_of_readHeader hheader]
    exact Text.within_of_readRefinedInstance _ symbol s bitmap s' h
  part h := Text.within_of_readRefinedInstance _ _ _ _ _ h
  plain h := Symbol.gives_readPlain _ _ _ _ _ _ _ h
  aggregate h := Symbol.gives_readAggregate _ _ _ _ _ _ _ _ h
  collective := Symbol.within_of_readCollective
  genericMakes data openLength :=
    (Generic.traces_decodeRegionTraced settings data openLength fun _ _ => id).makesWithin
  refinementMakes data _ hreference :=
    ((Refinement.traces_decodeRegionTraced settings data hreference).mono
      fun _ => And.left).makesWithin
  textMakes data _ hsymbols tables :=
    (Text.traces_decodeRegionTraced settings data hsymbols tables).makesWithin
  aggregateMakes hat _ hsymbols width height s :=
    (Symbol.follows_readAggregateTraced hat hsymbols width height s).makesWithin
  dictionaryMakes data _ hinput tables last :=
    (Symbol.traces_decodeTraced settings data hinput tables last).makesWithin
  instances hheader generic symbols region := by
    rw [← Text.maxPixelCount_of_readHeader hheader]
    exact Text.madeOf_decodeInstances generic _ symbols _ region
  symbols := Symbol.madeOf_readSymbols settings

/-! ## Streams -/

open Assembly in
/-- The pixel limit holds everywhere. Whatever the items of a stream, at every item that decoding
comes to, and behind it, all pages and all that is stored are within the limit. So is every page
however tall it gets, and the bitmap that a refinement region refines. Regions and symbols keep the
limit wherever they make bitmaps. If every bitmap is noted when it is made or grows, decoding comes
to the same, and all that are noted are within the limit, those for which nothing can be decoded in
the end as well. All pages and symbols that come of the stream are within it. Segments that are
shared have to be decoded with the same settings. -/
theorem pixels_within_limit (settings : DecodeSettings) (globals : Option Globals)
    (hglobals : ∀ g ∈ globals, ∃ data, g = Globals.ofBytes settings data)
    (items : List StreamItem) :
    (∀ v ∈ visits settings (globals.map (·.store)) {} items,
      v.state.Within settings.maxPixelCount ∧
      (v.state.take settings (globals.map (·.store)) v.item).Within settings.maxPixelCount ∧
      (∀ (n : Nat) page, v.state.openPages[n]? = some page → ∀ height grown,
        page.grow settings height = .ok grown → grown.bitmap.Within settings.maxPixelCount) ∧
      ∀ segment, v.item = .segment segment → ∀ bitmap b,
        v.state.reference settings (globals.map (·.store)) segment = .ok (bitmap, b) →
          bitmap.Within settings.maxPixelCount ∧ b.Within settings.maxPixelCount) ∧
    settings.Limits ∧
    (runTraced settings (globals.map (·.store)) {} items #[] =
        (run settings (globals.map (·.store)) {} items, Document.events settings globals items) ∧
      ∀ width height, .made width height ∈ Document.events settings globals items →
        width * height ≤ settings.maxPixelCount) ∧
    (∀ page ∈ (Document.ofItems settings globals items).pages,
      page.bitmap.Within settings.maxPixelCount) ∧
    ∀ (n : Nat) dictionary,
      (Document.ofItems settings globals items).dictionaries[n]? = some dictionary →
        ∀ symbol ∈ dictionary.symbols, symbol.Within settings.maxPixelCount := by
  have hshared := Document.all_shared hglobals
  have hrun := (within_empty settings.maxPixelCount).run hshared items
  have htraced := congrArg Prod.fst
    (runTraced_eq (within_empty settings.maxPixelCount) hshared items #[])
  refine ⟨fun v hv => ?_, settings.limits, ⟨?_, fun width height hmade => ?_⟩, hrun.pages,
    fun n dictionary h => ?_⟩
  · have hstate := Document.within_visits hglobals hv
    refine ⟨hstate, hstate.take hshared v.item, fun n page hpage height grown hgrow => ?_,
      fun segment _ bitmap b h => hstate.reference hshared h⟩
    exact ((hstate.openPages n page hpage).grow hgrow).bitmap
  · exact Prod.ext htraced rfl
  · exact Document.sound_of_mem_events hglobals hmade
  · exact hrun.store (.dictionary dictionary) ⟨n, h⟩

open Assembly in
/-- Sixteen pixels are allowed. A page of open height and eight columns grows to two rows with its
first stripe, and fails at the second one, which ends a row further down. -/
theorem pixels_within_limit_striped :
    let settings : DecodeSettings := { maxPixelCount := 16 }
    let globals : Globals := .ofBytes settings #[]
    let header (number : Nat) (kind : SegmentKind) : SegmentHeader :=
      ⟨number, kind, false, [], [], 1, none⟩
    let start : Segment := ⟨header 0 .pageInformation,
      #[0, 0, 0, 8, 0xFF, 0xFF, 0xFF, 0xFF, 0, 0, 0, 0, 0, 0, 0, 0, 0, 0x80, 0]⟩
    let stripe (number : Nat) (row : UInt8) : Segment :=
      ⟨header number .endOfStripe, #[0, 0, 0, row]⟩
    let items : List StreamItem := [.segment start, .segment (stripe 1 1), .segment (stripe 2 2)]
    (∃ data, globals = Globals.ofBytes settings data) ∧
      (visits settings (some globals.store) {} items).map
        (·.state.openPages.toList.map fun page => page.2.bitmap.height) = [[], [0], [2]] ∧
      (Document.ofItems settings (some globals) items).failures =
        #[⟨1, some 2, .unsupported .imageTooLarge⟩] ∧
      Document.events settings (some globals) items = #[.made 8 0, .made 8 2] ∧
      (∀ width height, .made width height ∈ Document.events settings (some globals) items →
        width * height ≤ 16) ∧
      ∀ v ∈ visits settings (some globals.store) {} items,
        v.state.Within 16 ∧ (v.state.take settings (some globals.store) v.item).Within 16 := by
  intro settings globals header start stripe items
  obtain ⟨h, -, ⟨-, hmade⟩, -⟩ := pixels_within_limit settings (some globals)
    (fun g hg => ⟨#[], (Option.some.inj hg).symm⟩) items
  refine ⟨⟨#[], rfl⟩, by decide +kernel, by decide +kernel, by decide +kernel, hmade,
    fun v hv => ?_⟩
  exact ⟨(h v hv).1, (h v hv).2.1⟩

end Bilevel

import Bilevel.Document.Assembly
import Bilevel.Proofs.Steps

/-!
# What decoding a segment has done

A segment that is decoded looks up its page and what it refers to, reads its data, and changes the
assembly in one or two places. All of that is listed here, kind by kind. What holds from one segment
to the next is shown for each item of the list.

## Main definitions

* `Assembly.Placed`, `Assembly.Noted`, `Assembly.Referenced` — the steps of decoding a region.
* `Assembly.DecodedRegion`, `Assembly.Decodes` — decoding a region, and any segment.

## Main results

* `Assembly.decodes_of_decode` — a segment that is decoded has done what is listed.
-/

namespace Bilevel

namespace Assembly

section

variable {a : Assembly} {number : Nat} {page : OpenPage}

theorem page_eq_ok : a.page number = .ok page ↔ a.openPages[number]? = some page := by
  unfold Assembly.page
  split
  · next h => simp [h]
  · next h => simp [h]

theorem mem_openPages (h : a.openPages[number]? = some page) : number ∈ a.openPages := by
  rw [Std.ExtTreeMap.mem_iff_isSome_getElem?, h]
  rfl

end

section

variable (settings : DecodeSettings) (shared : Option Store)

/-- A region was stored for later segments, or drawn onto its page. -/
inductive Placed (header : SegmentHeader) (use : RegionUse) (region : Region) (a b : Assembly) :
    Prop
  | stored (kept : use = .intermediate) (eq : b = { a with
      store := { a.store with regions := a.store.regions.insert header.number region } })
  | drawn {page drawn : OpenPage} (shown : use ≠ .intermediate)
    (old : a.openPages[header.page]? = some page) (draw : page.draw settings region = .ok drawn)
    (eq : b = a.setPage header.page drawn)

/-- Where the symbols of a text region are was noted, if the region is drawn. -/
inductive Noted (header : SegmentHeader) (use : RegionUse) (decoded : TextRegion)
    (a b : Assembly) : Prop
  | stored (kept : use = .intermediate) (eq : b = a)
  | noted {page : OpenPage} (shown : use ≠ .intermediate)
    (old : a.openPages[header.page]? = some page)
    (eq : b = a.setPage header.page (page.addLayout
      ⟨header.number, decoded.region.info.x, decoded.region.info.y, decoded.placements⟩))

/-- The bitmap that is refined is that of another region, or what is on the page. -/
inductive Referenced (segment : Segment) (a : Assembly) (bitmap : Bitmap) (b : Assembly) : Prop
  | region {info : RegionInfo} {r : Reader} {number : Nat} {others : List Nat} {region : Region}
    (read : (RegionInfo.read settings).run (Reader.ofBytes segment.data) = .ok (info, r))
    (referred : segment.header.referred = number :: others)
    (lookup : Store.lookup number (a.stores shared) = .ok (.region region))
    (bitmap_eq : bitmap = region.bitmap) (eq : b = a)
  | page {info : RegionInfo} {r : Reader} {page room : OpenPage}
    (read : (RegionInfo.read settings).run (Reader.ofBytes segment.data) = .ok (info, r))
    (referred : segment.header.referred = [])
    (old : a.openPages[segment.header.page]? = some page)
    (makeRoom : page.makeRoom settings info = .ok room)
    (crop : room.bitmap.crop settings.maxPixelCount info.x info.y info.width info.height =
      .ok bitmap)
    (eq : b = a.setPage segment.header.page room)

/-- A region was decoded. -/
inductive DecodedRegion (segment : Segment) (use : RegionUse) (a b : Assembly) :
    RegionCoding → Prop
  | generic {page : OpenPage} {region : Region}
    (old : a.openPages[segment.header.page]? = some page)
    (decode : Generic.decodeRegion settings segment.data segment.header.dataLength.isNone =
      .ok region)
    (placed : Placed settings segment.header use region a b) :
    DecodedRegion segment use a b .generic
  | text {page : OpenPage} {inputs : SymbolInputs} {decoded : TextRegion} {c : Assembly}
    (old : a.openPages[segment.header.page]? = some page)
    (gather : SymbolInputs.gather (a.stores shared) segment.header.referred = .ok inputs)
    (decode : Text.decodeRegion settings segment.data inputs.symbols inputs.tables = .ok decoded)
    (noted : Noted segment.header use decoded a c)
    (placed : Placed settings segment.header use decoded.region c b) :
    DecodedRegion segment use a b .text
  | refinement {page : OpenPage} {bitmap : Bitmap} {region : Region} {c : Assembly}
    (old : a.openPages[segment.header.page]? = some page)
    (referenced : Referenced settings shared segment a bitmap c)
    (decode : Refinement.decodeRegion settings segment.data bitmap = .ok region)
    (placed : Placed settings segment.header use region c b) :
    DecodedRegion segment use a b .refinement

/-- A segment was decoded. -/
inductive Decodes (segment : Segment) (a b : Assembly) : Prop
  | startPage {info : PageInfo} {r : Reader} {page : OpenPage}
    (kind : segment.header.kind = .pageInformation) (new : segment.header.page ∉ a.openPages)
    (read : PageInfo.read.run (Reader.ofBytes segment.data) = .ok (info, r))
    (start : OpenPage.start settings info = .ok page)
    (eq : b = a.setPage segment.header.page page)
  | endPage {page : OpenPage} (kind : segment.header.kind = .endOfPage)
    (old : a.openPages[segment.header.page]? = some page)
    (eq : b = a.endPage segment.header.page)
  | endStripe {row height : Nat} {r : Reader} {page grown : OpenPage}
    (kind : segment.header.kind = .endOfStripe)
    (read : (Reader.readUnsigned 4).run (Reader.ofBytes segment.data) = .ok (row, r))
    (old : a.openPages[segment.header.page]? = some page)
    (fits : checkWord (row + 1) = .ok height) (grow : page.grow settings height = .ok grown)
    (eq : b = a.setPage segment.header.page grown)
  | table {table : Huffman.Table} (kind : segment.header.kind = .tables)
    (read : Huffman.Table.read segment.data = .ok table)
    (eq : b = { a with store := { a.store with
      tables := a.store.tables.insert segment.header.number table } })
  | dictionary {inputs : SymbolInputs} {dictionary : SymbolDictionary}
    (kind : segment.header.kind = .symbolDictionary)
    (gather : SymbolInputs.gather (a.stores shared) segment.header.referred = .ok inputs)
    (decode : Symbol.decode settings segment.data inputs.symbols inputs.tables inputs.last =
      .ok dictionary)
    (eq : b = { a with store := { a.store with
      dictionaries := a.store.dictionaries.insert segment.header.number dictionary } })
  | region {coding : RegionCoding} {use : RegionUse}
    (kind : segment.header.kind = .region coding use)
    (decoded : DecodedRegion settings shared segment use a b coding)
  | ignored (kind : segment.header.kind ∈
      [SegmentKind.endOfFile, .profiles, .colourPalette, .extension]) (eq : b = a)

end

variable {settings : DecodeSettings} {shared : Option Store} {a b : Assembly} {segment : Segment}

theorem placed_of_place {header : SegmentHeader} {use : RegionUse} {region : Region}
    (h : a.place settings header use region = .ok b) :
    Placed settings header use region a b := by
  unfold place at h
  split at h
  · next hkept => exact .stored hkept (pure_eq_ok.mp h).symm
  · next hshown =>
    obtain ⟨page, hpage, h⟩ := bind_eq_ok.mp h
    obtain ⟨drawn, hdraw, h⟩ := bind_eq_ok.mp h
    exact .drawn hshown (page_eq_ok.mp hpage) hdraw (pure_eq_ok.mp h).symm

theorem noted_of_addLayout {header : SegmentHeader} {use : RegionUse} {decoded : TextRegion}
    (h : a.addLayout header use decoded = .ok b) : Noted header use decoded a b := by
  unfold addLayout at h
  split at h
  · next hkept => exact .stored hkept (pure_eq_ok.mp h).symm
  · next hshown =>
    obtain ⟨page, hpage, h⟩ := bind_eq_ok.mp h
    exact .noted hshown (page_eq_ok.mp hpage) (pure_eq_ok.mp h).symm

theorem referenced_of_reference {bitmap : Bitmap}
    (h : a.reference settings shared segment = .ok (bitmap, b)) :
    Referenced settings shared segment a bitmap b := by
  unfold reference at h
  obtain ⟨⟨info, r⟩, hread, h⟩ := bind_eq_ok.mp h
  dsimp only at h
  split at h
  · next hreferred =>
    obtain ⟨stored, hlookup, h⟩ := bind_eq_ok.mp h
    split at h
    · obtain ⟨hbitmap, heq⟩ := Prod.mk.inj (pure_eq_ok.mp h)
      exact .region hread hreferred hlookup hbitmap.symm heq.symm
    · exact absurd h throw_ne_ok
  · next hreferred =>
    obtain ⟨page, hpage, h⟩ := bind_eq_ok.mp h
    obtain ⟨room, hroom, h⟩ := bind_eq_ok.mp h
    obtain ⟨cropped, hcrop, h⟩ := bind_eq_ok.mp h
    obtain ⟨rfl, heq⟩ := Prod.mk.inj (pure_eq_ok.mp h)
    exact .page hread hreferred (page_eq_ok.mp hpage) hroom hcrop heq.symm

theorem decodedRegion_of_decodeRegion {use : RegionUse} {coding : RegionCoding}
    (h : a.decodeRegion settings shared segment use coding = .ok b) :
    DecodedRegion settings shared segment use a b coding := by
  cases coding with
  | halftone => cases h
  | generic =>
    obtain ⟨page, hpage, h⟩ := bind_eq_ok.mp h
    obtain ⟨region, hregion, h⟩ := bind_eq_ok.mp h
    exact .generic (page_eq_ok.mp hpage) hregion (placed_of_place h)
  | text =>
    obtain ⟨page, hpage, h⟩ := bind_eq_ok.mp h
    obtain ⟨inputs, hinputs, h⟩ := bind_eq_ok.mp h
    obtain ⟨decoded, hdecoded, h⟩ := bind_eq_ok.mp h
    obtain ⟨noted, hnoted, h⟩ := bind_eq_ok.mp h
    exact .text (page_eq_ok.mp hpage) hinputs hdecoded (noted_of_addLayout hnoted)
      (placed_of_place h)
  | refinement =>
    obtain ⟨page, hpage, h⟩ := bind_eq_ok.mp h
    obtain ⟨⟨bitmap, c⟩, hreference, h⟩ := bind_eq_ok.mp h
    obtain ⟨region, hregion, h⟩ := bind_eq_ok.mp h
    exact .refinement (page_eq_ok.mp hpage) (referenced_of_reference hreference) hregion
      (placed_of_place h)

theorem decodes_startPage (hkind : segment.header.kind = .pageInformation)
    (h : a.startPage settings segment = .ok b) : Decodes settings shared segment a b := by
  unfold startPage at h
  dsimp only at h
  split at h
  · exact absurd h throw_ne_ok
  · next hnew =>
    obtain ⟨⟨info, r⟩, hread, h⟩ := bind_eq_ok.mp h
    obtain ⟨page, hstart, h⟩ := bind_eq_ok.mp h
    exact .startPage hkind hnew hread hstart (pure_eq_ok.mp h).symm

theorem decodes_endStripe (hkind : segment.header.kind = .endOfStripe)
    (h : a.endStripe settings segment = .ok b) : Decodes settings shared segment a b := by
  unfold endStripe at h
  obtain ⟨⟨row, r⟩, hread, h⟩ := bind_eq_ok.mp h
  obtain ⟨page, hpage, h⟩ := bind_eq_ok.mp h
  obtain ⟨height, hheight, h⟩ := bind_eq_ok.mp h
  obtain ⟨grown, hgrow, h⟩ := bind_eq_ok.mp h
  exact .endStripe hkind hread (page_eq_ok.mp hpage) hheight hgrow (pure_eq_ok.mp h).symm

theorem decodes_addDictionary (hkind : segment.header.kind = .symbolDictionary)
    (h : a.addDictionary settings shared segment = .ok b) :
    Decodes settings shared segment a b := by
  unfold addDictionary at h
  obtain ⟨inputs, hinputs, h⟩ := bind_eq_ok.mp h
  obtain ⟨dictionary, hdictionary, h⟩ := bind_eq_ok.mp h
  exact .dictionary hkind hinputs hdictionary (pure_eq_ok.mp h).symm

/-- A segment that is decoded has done one of the things in the list. -/
theorem decodes_of_decode (h : a.decode settings shared segment = .ok b) :
    Decodes settings shared segment a b := by
  unfold decode at h
  split at h
  · next hkind => exact decodes_startPage hkind h
  · next hkind =>
    obtain ⟨page, hpage, h⟩ := bind_eq_ok.mp h
    exact .endPage hkind (page_eq_ok.mp hpage) (pure_eq_ok.mp h).symm
  · next hkind => exact decodes_endStripe hkind h
  iterate 4
    next hkind => exact .ignored (by simp [hkind]) (Except.ok.inj h).symm
  · next hkind =>
    obtain ⟨table, htable, h⟩ := bind_eq_ok.mp h
    exact .table hkind htable (pure_eq_ok.mp h).symm
  · next hkind => exact decodes_addDictionary hkind h
  · cases h
  · next hkind => exact .region hkind (decodedRegion_of_decodeRegion h)

end Assembly
end Bilevel

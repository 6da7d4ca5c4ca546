import Bilevel.Proofs.Document.Stored
import Bilevel.Proofs.Symbol.PixelLimit

/-!
# Pages and stores within the pixel limit

For pages the pixel limit has to hold at every step: a page of open height has the width that its
information gives, and whatever makes it taller checks the size first. What is stored for later
segments is within the limit too, so that dictionaries can take over symbols from others, which may
be shared.

## Main definitions

* `Assembly.Within` — all bitmaps that an assembly has are within the limit.

## Main results

* `Assembly.Within.take`, `Assembly.Within.run` — what an item preserves and a run comes to.
-/

namespace Bilevel

/-- The bitmaps of something that is stored have at most `maxPixels` pixels. -/
def Stored.Within (maxPixels : Nat) : Stored → Prop
  | .dictionary d => Symbol.AllWithin maxPixels d.symbols
  | .table _ => True
  | .region r => r.bitmap.Within maxPixels

theorem Stored.kept_within (settings : DecodeSettings) :
    Stored.Kept settings (Stored.Within settings.maxPixelCount) where
  dictionary hinputs h := by
    refine Symbol.within_of_decode (fun symbol hsymbol => ?_) h
    obtain ⟨dictionary, hdictionary, hmem⟩ := hinputs.symbols symbol hsymbol
    exact hdictionary symbol hmem
  table _ := True.intro
  generic h := (Generic.made_of_decodeRegion h).within
  refinement h := (Refinement.made_of_decodeRegion h).within
  text h := (Text.made_of_decodeRegion h).within

/-! ## Pages -/

namespace OpenPage

variable {settings : DecodeSettings} {page page' : OpenPage}

/-- The page has the given width, and at most `maxPixels` pixels. -/
structure Within (maxPixels : Nat) (page : OpenPage) : Prop where
  width : page.bitmap.width = page.info.width
  bitmap : page.bitmap.Within maxPixels

theorem within_start {info : PageInfo} (h : start settings info = .ok page) :
    page.Within settings.maxPixelCount := by
  unfold start at h
  dsimp only at h
  split at h
  · exact absurd h throw_ne_ok
  obtain ⟨blank, hblank, h⟩ := bind_eq_ok.mp h
  cases h
  have hwithin := Bitmap.within_create hblank
  obtain ⟨-, rfl⟩ := Bitmap.create_eq_ok.mp hblank
  have hsame : (if info.startsBlack then
      (Bitmap.blank info.width (info.height.getD 0)).fill true
      else Bitmap.blank info.width (info.height.getD 0)).SameSize
        (Bitmap.blank info.width (info.height.getD 0)) := by
    split
    · exact Bitmap.sameSize_fill ..
    · exact .refl _
  exact ⟨hsame.width, hsame.within hwithin⟩

/-- A page is checked before it grows. -/
theorem Within.grow (hpage : page.Within settings.maxPixelCount) {height : Nat}
    (h : page.grow settings height = .ok page') : page'.Within settings.maxPixelCount := by
  unfold OpenPage.grow at h
  split at h
  · cases h
    exact hpage
  · next hgrows =>
    split at h
    · cases h
    · next hle =>
      cases h
      refine ⟨(Bitmap.width_extendHeight ..).trans hpage.width, ?_⟩
      unfold Bitmap.Within
      dsimp only
      rw [Bitmap.width_extendHeight, Bitmap.height_extendHeight, hpage.width,
        Nat.max_eq_right (by omega)]
      exact Nat.not_lt.mp hle

theorem Within.makeRoom (hpage : page.Within settings.maxPixelCount) {info : RegionInfo}
    (h : page.makeRoom settings info = .ok page') : page'.Within settings.maxPixelCount := by
  obtain ⟨right, -, h⟩ := bind_eq_ok.mp h
  obtain ⟨bottom, -, h⟩ := bind_eq_ok.mp h
  exact hpage.grow h

theorem Within.draw (hpage : page.Within settings.maxPixelCount) {region : Region}
    (h : page.draw settings region = .ok page') : page'.Within settings.maxPixelCount := by
  obtain ⟨room, hroom, h⟩ := bind_eq_ok.mp h
  cases h
  have hwithin := hpage.makeRoom hroom
  have hsame := Bitmap.sameSize_combine room.bitmap region.bitmap region.info.x region.info.y
    region.info.operator
  exact ⟨hsame.width.trans hwithin.width, hsame.within hwithin.bitmap⟩

end OpenPage

/-! ## Assemblies -/

namespace Assembly

/-- All pages of an assembly are within the limit, those that are open and those that have ended. -/
structure PagesWithin (maxPixels : Nat) (a : Assembly) : Prop where
  openPages : ∀ (n : Nat) page, a.openPages[n]? = some page → page.Within maxPixels
  pages : ∀ page ∈ a.pages, page.bitmap.Within maxPixels

/-- All bitmaps that an assembly has are within the limit: its pages and what is stored. -/
structure Within (maxPixels : Nat) (a : Assembly) : Prop extends PagesWithin maxPixels a where
  store : a.store.All (Stored.Within maxPixels)

theorem within_empty (maxPixels : Nat) : Within maxPixels {} :=
  ⟨⟨by simp, by simp⟩, Store.all_empty⟩

variable {settings : DecodeSettings} {shared : Option Store} {a b : Assembly} {segment : Segment}
  {maxPixels : Nat}

theorem PagesWithin.setPage (ha : a.PagesWithin maxPixels) {number : Nat} {page : OpenPage}
    (hpage : page.Within maxPixels) : (a.setPage number page).PagesWithin maxPixels :=
  ⟨Numbered.forall_insert ha.openPages hpage, ha.pages⟩

theorem PagesWithin.endPage (ha : a.PagesWithin maxPixels) (number : Nat) :
    (a.endPage number).PagesWithin maxPixels := by
  refine ⟨fun n page h => ?_, fun page h => ?_⟩
  · rw [get?_endPage] at h
    split at h
    · cases h
    · exact ha.openPages n page h
  · unfold Assembly.endPage at h
    split at h
    · next ended hended =>
      rcases Array.mem_push.mp h with h | rfl
      · exact ha.pages page h
      · exact (ha.openPages number ended hended).bitmap
    · exact ha.pages page h

theorem PagesWithin.fail (ha : a.PagesWithin maxPixels) (page : Nat) (number : Option Nat)
    (error : DecodeError) : (a.fail page number error).PagesWithin maxPixels := by
  refine ⟨fun n page' h => ?_, fun page' h => ?_⟩
  · rw [get?_fail] at h
    split at h
    · cases h
    · exact ha.openPages n page' h
  · rw [fail_pages] at h
    exact ha.pages page' h

/-! ## Segments -/

theorem Placed.pagesWithin {header : SegmentHeader} {use : RegionUse} {region : Region}
    (h : Placed settings header use region a b) (ha : a.PagesWithin settings.maxPixelCount) :
    b.PagesWithin settings.maxPixelCount := by
  cases h with
  | stored _ eq => exact eq ▸ ⟨ha.openPages, ha.pages⟩
  | drawn _ old draw eq => exact eq ▸ ha.setPage ((ha.openPages _ _ old).draw draw)

theorem Noted.pagesWithin {header : SegmentHeader} {use : RegionUse} {decoded : TextRegion}
    (h : Noted header use decoded a b) (ha : a.PagesWithin maxPixels) :
    b.PagesWithin maxPixels := by
  cases h with
  | stored _ eq => exact eq ▸ ha
  | noted _ old eq =>
    have hwithin := ha.openPages _ _ old
    exact eq ▸ ha.setPage ⟨hwithin.width, hwithin.bitmap⟩

/-- The bitmap that a refinement region refines is within the limit, and so is its page if it has
to grow for it. -/
theorem Referenced.within {bitmap : Bitmap} (h : Referenced settings shared segment a bitmap b)
    (hshared : ∀ store ∈ shared, store.All (Stored.Within settings.maxPixelCount))
    (ha : a.Within settings.maxPixelCount) :
    bitmap.Within settings.maxPixelCount ∧ b.Within settings.maxPixelCount := by
  cases h with
  | region _ _ lookup bitmap_eq eq =>
    have hwithin := Store.all_lookup (all_stores hshared ha.store) lookup
    exact ⟨bitmap_eq ▸ hwithin, eq ▸ ha⟩
  | page _ _ old makeRoom crop eq =>
    have hroom := (ha.openPages _ _ old).makeRoom makeRoom
    exact ⟨Bitmap.within_crop crop, eq ▸ ⟨ha.toPagesWithin.setPage hroom, ha.store⟩⟩

theorem Within.reference (ha : a.Within settings.maxPixelCount)
    (hshared : ∀ store ∈ shared, store.All (Stored.Within settings.maxPixelCount)) {bitmap : Bitmap}
    (h : a.reference settings shared segment = .ok (bitmap, b)) :
    bitmap.Within settings.maxPixelCount ∧ b.Within settings.maxPixelCount :=
  (referenced_of_reference h).within hshared ha

variable (hshared : ∀ store ∈ shared, store.All (Stored.Within settings.maxPixelCount))

include hshared

theorem DecodedRegion.pagesWithin {use : RegionUse} {coding : RegionCoding}
    (h : DecodedRegion settings shared segment use a b coding)
    (ha : a.Within settings.maxPixelCount) : b.PagesWithin settings.maxPixelCount := by
  cases h with
  | generic _ _ placed => exact placed.pagesWithin ha.toPagesWithin
  | text _ _ _ noted placed => exact placed.pagesWithin (noted.pagesWithin ha.toPagesWithin)
  | refinement _ referenced _ placed =>
    exact placed.pagesWithin (referenced.within hshared ha).2.toPagesWithin

theorem Within.decode (ha : a.Within settings.maxPixelCount)
    (h : a.decode settings shared segment = .ok b) : b.Within settings.maxPixelCount := by
  refine ⟨?_, all_decode (Stored.kept_within settings) hshared ha.store h⟩
  cases decodes_of_decode h with
  | startPage _ _ _ start eq => exact eq ▸ ha.toPagesWithin.setPage (OpenPage.within_start start)
  | endPage _ _ eq => exact eq ▸ ha.toPagesWithin.endPage _
  | endStripe _ _ old _ grow eq =>
    exact eq ▸ ha.toPagesWithin.setPage ((ha.openPages _ _ old).grow grow)
  | table _ _ eq | dictionary _ _ _ eq => exact eq ▸ ⟨ha.openPages, ha.pages⟩
  | region _ decoded => exact decoded.pagesWithin hshared ha
  | ignored _ eq => exact eq ▸ ha.toPagesWithin

theorem Within.process (ha : a.Within settings.maxPixelCount) (segment : Segment) :
    (a.process settings shared segment).Within settings.maxPixelCount := by
  rcases processed_process settings shared segment a with ⟨-, eq⟩ | ⟨-, b, ok, eq⟩ | ⟨-, e, -, eq⟩
  · rw [eq]
    exact ha
  · have hb := ha.decode hshared ok
    rw [eq]
    exact ⟨⟨hb.openPages, hb.pages⟩, hb.store.noteDecoded⟩
  · rw [eq]
    exact ⟨ha.toPagesWithin.fail _ _ _, by rw [fail_store]; exact ha.store⟩

/-- An item leaves the assembly within the limit. -/
theorem Within.take (ha : a.Within settings.maxPixelCount) (item : StreamItem) :
    (a.take settings shared item).Within settings.maxPixelCount := by
  cases item with
  | segment s => exact ha.process hshared s
  | invalid header error =>
    exact ⟨ha.toPagesWithin.fail _ _ _, by rw [Assembly.take, fail_store]; exact ha.store⟩
  | broken header error => exact ha

omit hshared in
theorem PagesWithin.endAll (ha : a.PagesWithin maxPixels) : a.endAll.PagesWithin maxPixels := by
  unfold Assembly.endAll
  induction a.openNumbers generalizing a with
  | nil => exact ha
  | cons number numbers ih => exact ih (ha.endPage number)

omit hshared in
theorem PagesWithin.failAll (ha : a.PagesWithin maxPixels) (page : Nat) (number : Option Nat)
    (error : DecodeError) : (a.failAll page number error).PagesWithin maxPixels := by
  unfold Assembly.failAll
  generalize (if a.openNumbers.isEmpty = true then [page] else a.openNumbers) = numbers
  dsimp only
  induction numbers generalizing a with
  | nil => exact ha
  | cons n numbers ih => exact ih (ha.fail n number error)

/-- What a run comes to is within the limit. -/
theorem Within.run (ha : a.Within settings.maxPixelCount) (items : List StreamItem) :
    (Assembly.run settings shared a items).Within settings.maxPixelCount := by
  refine ⟨?_, all_run (Stored.kept_within settings) hshared ha.store items⟩
  induction items generalizing a with
  | nil => exact ha.toPagesWithin.endAll
  | cons item items ih =>
    cases hon : a.goesOn item with
    | true =>
      rw [run_of_goesOn hon]
      exact ih (ha.take hshared item)
    | false =>
      cases item with
      | segment s =>
        have hends : a.ends s = true := by simpa [goesOn] using hon
        rw [Assembly.run, if_pos hends]
        exact (ha.process hshared s).toPagesWithin.endAll
      | invalid header error => cases hon
      | broken header error => exact ha.toPagesWithin.failAll _ _ _

end Assembly

end Bilevel

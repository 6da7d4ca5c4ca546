import Bilevel.Proofs.Document.Height
import Bilevel.Proofs.Document.Visits

/-!
# Regions that are kept for later segments

An intermediate region is stored under the number of its segment, and isn't drawn. Decoding it
leaves the pages alone, with one exception: a refinement region without references takes what it
refines from its page, and a page of open height grows for it first.

## Main results

* `Assembly.process_intermediate` — all that an intermediate region changes.
-/

namespace Bilevel

namespace OpenPage

variable {settings : DecodeSettings} {page room : OpenPage} {info : RegionInfo}

/-- A page whose height was given has no more room than that. -/
theorem makeRoom_of_given (hgiven : page.info.height ≠ none)
    (h : page.makeRoom settings info = .ok room) : room = page := by
  have hkept : page.grow settings (info.y + info.height) = .ok page :=
    if_pos (.inl (Option.isSome_iff_ne_none.mpr hgiven))
  exact Except.ok.inj ((grow_of_makeRoom h).symm.trans hkept)

end OpenPage

theorem Numbered.insert_self {α : Type} {t : Numbered α} {k : Nat} {v : α} (h : t[k]? = some v) :
    t.insert k v = t := by
  apply Std.ExtTreeMap.ext_getElem?
  intro p
  grind [Numbered.get?_insert]

namespace Assembly

variable {settings : DecodeSettings} {shared : Option Store} {a b : Assembly} {s : Segment}

/-- A refinement region makes room on its page if it refines what is there. -/
theorem openPages_reference {page : OpenPage} {bitmap : Bitmap}
    (hp : a.openPages[s.header.page]? = some page)
    (h : a.reference settings shared s = .ok (bitmap, b)) :
    ∃ info r, (RegionInfo.read settings).run (Reader.ofBytes s.data) = .ok (info, r) ∧
      b = { a with
        openPages :=
          if s.header.referred = [] ∧ page.info.height = none then
            a.openPages.insert s.header.page { page with
              bitmap := page.bitmap.extendHeight (info.y + info.height) page.info.startsBlack }
          else a.openPages } := by
  cases referenced_of_reference h with
  | region read referred _ _ eq =>
    refine ⟨_, _, read, ?_⟩
    rw [eq, if_neg (by simp [referred])]
  | page read referred old makeRoom _ eq =>
    obtain rfl := Option.some.inj (hp.symm.trans old)
    refine ⟨_, _, read, ?_⟩
    rw [eq]
    by_cases hopen : page.info.height = none
    · rw [if_pos ⟨referred, hopen⟩,
        (OpenPage.grow_eq_ok hopen (OpenPage.grow_of_makeRoom makeRoom)).1]
      rfl
    · rw [if_neg fun h => hopen h.2, OpenPage.makeRoom_of_given hopen makeRoom, setPage,
        Numbered.insert_self hp]

/-- An intermediate region that is decoded is stored under the number of its segment. Nothing else
changes, except that a page of open height grows for a refinement region without references. -/
theorem process_intermediate (settings : DecodeSettings) (shared : Option Store) {a b : Assembly}
    {s : Segment} {coding : RegionCoding} (hkind : s.header.kind = .region coding .intermediate)
    (hpassed : a.passesOver s.header.page = false) (h : a.decode settings shared s = .ok b) :
    ∃ page region, a.openPages[s.header.page]? = some page ∧
      a.process settings shared s = { a with
        openPages :=
          if coding = .refinement ∧ s.header.referred = [] ∧ page.info.height = none then
            a.openPages.insert s.header.page { page with
              bitmap := page.bitmap.extendHeight (region.info.y + region.info.height)
                page.info.startsBlack }
          else a.openPages
        store := { a.store with
          regions := a.store.regions.insert s.header.number region
          decoded := a.store.decoded.insert s.header.number } } := by
  have hprocess : a.process settings shared s = b.noteDecoded s.header.number := by
    unfold process
    simp only [hpassed, h, Bool.false_eq_true, if_false]
  rw [hprocess]
  unfold decode at h
  rw [hkind] at h
  cases coding with
  | halftone => cases h
  | generic =>
    obtain ⟨page, hpage, h⟩ := bind_eq_ok.mp h
    obtain ⟨region, -, h⟩ := bind_eq_ok.mp h
    obtain rfl := pure_eq_ok.mp h
    exact ⟨page, region, page_eq_ok.mp hpage, rfl⟩
  | text =>
    obtain ⟨page, hpage, h⟩ := bind_eq_ok.mp h
    obtain ⟨inputs, -, h⟩ := bind_eq_ok.mp h
    obtain ⟨decoded, -, h⟩ := bind_eq_ok.mp h
    obtain ⟨c, hlayout, h⟩ := bind_eq_ok.mp h
    obtain rfl := pure_eq_ok.mp hlayout
    obtain rfl := pure_eq_ok.mp h
    exact ⟨page, decoded.region, page_eq_ok.mp hpage, rfl⟩
  | refinement =>
    obtain ⟨page, hpage, h⟩ := bind_eq_ok.mp h
    obtain ⟨⟨bitmap, c⟩, hreference, h⟩ := bind_eq_ok.mp h
    obtain ⟨region, hregion, h⟩ := bind_eq_ok.mp h
    have hp := page_eq_ok.mp hpage
    obtain ⟨info, r, hinfo, rfl⟩ := openPages_reference hp hreference
    -- The region is where the information says that it is.
    obtain ⟨-, r', hread⟩ := Refinement.read_of_decodeRegion hregion
    obtain ⟨rfl, -⟩ := Prod.mk.inj (Except.ok.inj (hinfo.symm.trans hread))
    obtain rfl := pure_eq_ok.mp h
    refine ⟨page, region, hp, ?_⟩
    simp only [noteDecoded, true_and]

/-- Refining a part of a page whose height was given leaves the page as it is. -/
theorem process_intermediate_given :
    let page : OpenPage := ⟨{ width := 4, height := some 4 }, .blank 4 4, #[]⟩
    let a : Assembly := setPage {} 1 page
    let header : SegmentHeader :=
      ⟨1, .region .refinement .intermediate, false, [], [], 1, some 18⟩
    let s : Segment := ⟨header, #[0, 0, 0, 2, 0, 0, 0, 2, 0, 0, 0, 1, 0, 0, 0, 1, 0, 1]⟩
    (s.header.kind = .region .refinement .intermediate ∧ a.passesOver s.header.page = false ∧
      (a.decode {} none s).isOk) ∧
    (a.process {} none s).openPages = a.openPages := by
  intro page a header s
  have hpassed : a.passesOver s.header.page = false := by decide +kernel
  have hok : (a.decode {} none s).isOk := by decide +kernel
  obtain ⟨b, hb⟩ := exists_of_isOk hok
  have hp : a.openPages[s.header.page]? = some page := openPages_setPage
  obtain ⟨page', region, hp', heq⟩ := process_intermediate {} none rfl hpassed hb
  obtain rfl := Option.some.inj (hp.symm.trans hp')
  have hgiven : page.info.height ≠ none := Option.some_ne_none 4
  refine ⟨⟨rfl, hpassed, hok⟩, ?_⟩
  rw [heq]
  simp only [hgiven, and_false, if_false]

/-- A page of open height has three rows after a part of it was refined, though nothing is drawn. -/
theorem height_intermediate :
    let items := Stream.embedded #[0, 0, 0, 0, 48, 0, 1, 0, 0, 0, 19, 0, 0, 0, 4, 255, 255, 255,
      255, 0, 0, 0, 0, 0, 0, 0, 0, 0, 128, 0, 0, 0, 0, 1, 40, 0, 1, 0, 0, 0, 18, 0, 0, 0, 2, 0, 0,
      0, 2, 0, 0, 0, 1, 0, 0, 0, 1, 0, 1, 0, 0, 0, 2, 49, 0, 1, 0, 0, 0, 0]
    (run {} none {} items).failures = #[] ∧
    (visits {} none {} items).map (fun v => (v.item.header?.map (·.kind),
        v.state.openPages[1]?.map (·.bitmap.height))) =
      [(some .pageInformation, none), (some (.region .refinement .intermediate), some 0),
        (some .endOfPage, some 3)] := by
  decide +kernel

end Assembly
end Bilevel

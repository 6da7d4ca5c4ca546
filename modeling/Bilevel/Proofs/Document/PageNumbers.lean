import Mathlib.Data.List.Nodup
import Bilevel.Document.Decode
import Bilevel.Proofs.Bitmap.Pixels
import Bilevel.Proofs.Document.Lifecycle

/-!
# The numbers of the pages

A page is looked up by its number, which finds the first page with this number. It is the only one
if no page begins again after it has ended. While a page is open it can't begin again, but the
assembly doesn't keep the numbers of the pages that have ended, so that another page information
segment begins a second page with the number.

## Main definitions

* `FailsOnly` — the errors with which a read can fail.

## Main results

* `Assembly.decode_eq_duplicate` — which page information segments count as duplicates.
* `Document.nodup_numbers_iff` — when the pages of a document have different numbers.
-/

namespace Bilevel

/-! ## Announcing a page -/

/-- All errors with which a read can fail fulfil `P`. -/
def FailsOnly {α : Type} (P : DecodeError → Prop) (m : Reading α) : Prop :=
  ∀ r e, m r = .error e → P e

section

variable {α β : Type} {P : DecodeError → Prop} {m : Reading α} {f : α → Reading β}

theorem FailsOnly.bind (h : FailsOnly P m) (h' : ∀ a, FailsOnly P (f a)) :
    FailsOnly P (m >>= f) := by
  intro r e he
  rcases run_bind_eq_error.mp he with hfirst | ⟨a, s, -, hsecond⟩
  · exact h r e hfirst
  · exact h' a s e hsecond

theorem failsOnly_pure (a : α) : FailsOnly P (pure a : Reading α) := fun _ _ he => nomatch he

theorem failsOnly_throw {e : DecodeError} (h : P e) : FailsOnly P (throw e : Reading α) :=
  fun _ _ he => Except.error.inj he ▸ h

theorem failsOnly_readUnsigned (h : P .unexpectedEnd) (count : Nat) :
    FailsOnly P (Reader.readUnsigned count) := by
  have hbytes : FailsOnly P (Reader.readBytes count) := by
    intro r e he
    unfold Reader.readBytes at he
    dsimp only at he
    split at he
    · cases he
    · exact Except.error.inj he ▸ h
  exact hbytes.bind fun _ => failsOnly_pure _

end

/-- Whatever is wrong with a page information segment by itself, it isn't that there is another. -/
theorem PageInfo.failsOnly_read :
    FailsOnly (· ≠ .malformed .duplicatePageInformation) PageInfo.read := by
  have hfield := failsOnly_readUnsigned (P := (· ≠ .malformed .duplicatePageInformation)) (by decide)
  refine (hfield 4).bind fun width => (hfield 4).bind fun height => (hfield 4).bind fun _ =>
    (hfield 4).bind fun _ => (hfield 1).bind fun flags => ?_
  split
  · refine (hfield 2).bind fun striping => ?_
    dsimp only
    split
    · exact FailsOnly.bind (failsOnly_throw (by decide)) fun _ => failsOnly_pure _
    · exact failsOnly_pure _
  · exact failsOnly_throw (by decide)

theorem OpenPage.start_ne_duplicate (settings : DecodeSettings) (info : PageInfo) :
    start settings info ≠ .error (.malformed .duplicatePageInformation) := by
  intro h
  unfold start at h
  dsimp only at h
  split at h
  · exact absurd (Except.error.inj h) (by decide)
  · rcases bind_eq_error.mp h with h | ⟨_, -, h⟩
    · unfold Bitmap.create at h
      split at h
      · exact absurd (Except.error.inj h) (by decide)
      · cases h
    · cases h

namespace Assembly

/-- A page information segment is a duplicate just if its page is open. -/
theorem decode_eq_duplicate {settings : DecodeSettings} {shared : Option Store} {a : Assembly}
    {s : Segment} (hkind : s.header.kind = .pageInformation) :
    a.decode settings shared s = .error (.malformed .duplicatePageInformation) ↔
      s.header.page ∈ a.openPages := by
  have hdecode : a.decode settings shared s = a.startPage settings s := by rw [decode, hkind]
  rw [hdecode, startPage]
  dsimp only
  split
  · next hopen => exact iff_of_true rfl hopen
  · next hnew =>
    refine iff_of_false (fun h => ?_) hnew
    rcases bind_eq_error.mp h with hread | ⟨⟨info, _⟩, -, h⟩
    · exact PageInfo.failsOnly_read _ _ hread rfl
    · rcases bind_eq_error.mp h with hstart | ⟨_, -, h⟩
      · exact OpenPage.start_ne_duplicate settings info hstart
      · cases h

/-- At the end of a run, a page was opened as often as it was finished, plus once if it failed while
it was open. -/
theorem size_pagesOf_run (settings : DecodeSettings) (shared : Option Store)
    {items : List StreamItem} (h : ∀ item ∈ items, item.Checked) (p : Nat) :
    let actions := actions settings shared {} items
    ((run settings shared {} items).pagesOf p).size +
      (failedOpen settings shared p {} actions).toNat = openings settings shared p {} actions := by
  intro actions
  have hbalance := balance_actAll settings shared (p := p) sound_empty
    (checked_actions settings shared {} h)
  have hbegin : (pagesOf {} p).size = 0 := rfl
  rw [← run_eq_actAll, openCount_eq_zero (by simp [openPages_run settings shared sound_empty h]),
    openCount_eq_zero (by simp), hbegin] at hbalance
  simpa using hbalance

theorem nodup_numbers_iff_size (a : Assembly) :
    (a.pages.toList.map (·.number)).Nodup ↔ ∀ p, (a.pagesOf p).size ≤ 1 := by
  rw [List.nodup_iff_count_le_one]
  refine forall_congr' fun p => ?_
  rw [List.count, List.countP_map, Array.countP_toList, Array.countP_eq_size_filter, pagesOf]
  rfl

end Assembly

namespace Document

/-- If all pages have different numbers, each is found by its number. -/
theorem page?_of_nodup {document : Document} (h : (document.pages.toList.map (·.number)).Nodup)
    {page : Page} (hpage : page ∈ document.pages) : document.page? page.number = some page := by
  have hsome : (document.page? page.number).isSome := by
    rw [page?, Array.find?_isSome]
    exact ⟨page, hpage, by simp⟩
  obtain ⟨found, hfound⟩ := Option.isSome_iff_exists.mp hsome
  have hnumber : found.number = page.number := by simpa using Array.find?_some hfound
  have hmem : found ∈ document.pages := Array.mem_of_find?_eq_some hfound
  have hsame := List.inj_on_of_nodup_map h hmem.val hpage.val hnumber
  rw [hfound, hsame]

/-- The pages of a document have different numbers just if no page is opened twice, apart from the
opening after which it fails; each is then found by its number. A page information segment is only
refused as a duplicate while its page is open. -/
theorem nodup_numbers_iff (settings : DecodeSettings) (globals : Option Globals)
    {items : List StreamItem} (h : ∀ item ∈ items, item.Checked) :
    let document := ofItems settings globals items
    let shared := globals.map (·.store)
    let actions := Assembly.actions settings shared {} items
    ((document.pages.toList.map (·.number)).Nodup ↔
      ∀ p, Assembly.openings settings shared p {} actions ≤
        1 + (Assembly.failedOpen settings shared p {} actions).toNat) ∧
    ((document.pages.toList.map (·.number)).Nodup →
      ∀ page ∈ document.pages, document.page? page.number = some page) ∧
    ∀ a : Assembly, ∀ s : Segment, s.header.kind = .pageInformation →
      (a.decode settings shared s = .error (.malformed .duplicatePageInformation) ↔
        s.header.page ∈ a.openPages) := by
  intro document shared actions
  refine ⟨?_, fun hnodup page hpage => page?_of_nodup hnodup hpage,
    fun a s hkind => Assembly.decode_eq_duplicate hkind⟩
  refine (Assembly.nodup_numbers_iff_size (Assembly.run settings shared {} items)).trans
    (forall_congr' fun p => ?_)
  have hsize : ((Assembly.run settings shared {} items).pagesOf p).size +
      (Assembly.failedOpen settings shared p {} actions).toNat =
        Assembly.openings settings shared p {} actions :=
    Assembly.size_pagesOf_run settings shared h p
  omega

/-- Three pages are open at a time. Page 1 fails then, and can't begin again. Page 2 ends before page
3, and both are found by their numbers. -/
theorem nodup_numbers_threePages :
    let header (number : Nat) (kind : SegmentKind) (page : Nat) : SegmentHeader :=
      ⟨number, kind, false, [], [], page, some 0⟩
    let data : Bytes := #[0, 0, 0, 1, 0, 0, 0, 1, 0, 0, 0, 0, 0, 0, 0, 0, 0, 0, 0]
    let items : List StreamItem := [.segment ⟨header 0 .pageInformation 1, data⟩,
      .segment ⟨header 1 .pageInformation 2, data⟩,
      .segment ⟨header 2 .pageInformation 3, data⟩,
      .segment ⟨header 3 (.region .generic .immediate) 1, #[]⟩,
      .segment ⟨header 4 .pageInformation 1, data⟩, .segment ⟨header 5 .endOfPage 2, #[]⟩]
    let document := ofItems {} none items
    let actions := Assembly.actions {} none {} items
    (∀ item ∈ items, item.Checked) ∧ document.pages.map (·.number) = #[2, 3] ∧
      document.failures = #[⟨1, some 3, .unexpectedEnd⟩] ∧
      ([1, 2, 3].map fun p => (Assembly.openings {} none p {} actions,
        Assembly.failedOpen {} none p {} actions)) = [(1, true), (1, false), (1, false)] ∧
      (∀ p, Assembly.openings {} none p {} actions ≤
        1 + (Assembly.failedOpen {} none p {} actions).toNat) ∧
      ∀ page ∈ document.pages, document.page? page.number = some page := by
  intro header data items document actions
  have h : ∀ item ∈ items, item.Checked := by
    simp [items, header, StreamItem.Checked, SegmentHeader.validate, SegmentKind.pageBound]
  have hnodup : (document.pages.toList.map (·.number)).Nodup := by decide +kernel
  obtain ⟨hiff, hfound, -⟩ := nodup_numbers_iff {} none h
  exact ⟨h, by decide +kernel, by decide +kernel, by decide +kernel, hiff.mp hnodup, hfound hnodup⟩

/-- A black page with the number 1 ends, and a white one with the same number begins. Nothing fails,
and the second page isn't found by its number. -/
theorem numbers_announcedAgain :
    let document :=
      ofItems {} none (Stream.embedded #[0, 0, 0, 0, 48, 0, 1, 0, 0, 0, 19, 0, 0, 0, 1, 0, 0, 0, 1,
        0, 0, 0, 0, 0, 0, 0, 0, 4, 0, 0, 0, 0, 0, 1, 49, 0, 1, 0, 0, 0, 0, 0, 0, 0, 2, 48, 0, 1, 0,
        0, 0, 19, 0, 0, 0, 1, 0, 0, 0, 1, 0, 0, 0, 0, 0, 0, 0, 0, 0, 0, 0, 0, 0, 0, 3, 49, 0, 1, 0,
        0, 0, 0])
    document.failures = #[] ∧ document.pages.map (·.number) = #[1, 1] ∧
      ∃ page ∈ document.pages.toList, document.page? page.number ≠ some page := by
  decide +kernel

end Document
end Bilevel

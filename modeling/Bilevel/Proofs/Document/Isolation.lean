import Bilevel.Proofs.Document.Oblivious

/-!
# Pages don't affect each other

What comes of a page depends only on its own segments and on those of no page. Two runs that agree
on what a page can see, its open page and the segments to which it can refer, deal with its segments
alike. A segment of another page leaves alone what this page can see.

## Main definitions

* `Assembly.Agree` — two assemblies look the same to a page.
* `StreamItem.Sealed` — segments refer to segments of their own page and of no page.

## Main results

* `Assembly.run_filter` — a page comes out the same without the segments of other pages.
-/

namespace Bilevel
namespace Assembly

/-- The failures of a page. -/
def failuresOf (a : Assembly) (p : Nat) : Array PageFailure := a.failures.filter (·.page = p)

/-- Two assemblies look the same to page `p`, to which the segments with the numbers `hidden` are
not visible. -/
structure Agree (p : Nat) (hidden : Nat → Prop) (a b : Assembly) : Prop where
  openPages : ∀ q, q = 0 ∨ q = p → a.openPages[q]? = b.openPages[q]?
  failedPages : p ∈ a.failedPages ↔ p ∈ b.failedPages
  store : ∀ n, ¬hidden n → SameAt n a.store b.store
  pages : a.pagesOf p = b.pagesOf p
  failures : a.failuresOf p = b.failuresOf p

variable {p : Nat} {hidden : Nat → Prop} {a b c : Assembly}

/-! ## Segments of the page -/

namespace Agree

theorem refl (p : Nat) (hidden : Nat → Prop) (a : Assembly) : Agree p hidden a a :=
  ⟨fun _ _ => rfl, .rfl, fun _ _ => .refl _ _, rfl, rfl⟩

theorem setStore (h : Agree p hidden a b) {s t : Store}
    (hst : ∀ n, ¬hidden n → SameAt n s t) :
    Agree p hidden { a with store := s } { b with store := t } :=
  ⟨h.openPages, h.failedPages, hst, h.pages, h.failures⟩

theorem setPage (h : Agree p hidden a b) (q : Nat) (page : OpenPage) :
    Agree p hidden (a.setPage q page) (b.setPage q page) := by
  refine ⟨fun r hr => ?_, h.failedPages, h.store, h.pages, h.failures⟩
  simp only [Assembly.setPage, Numbered.get?_insert, h.openPages r hr]

theorem endPage (h : Agree p hidden a b) (q : Nat) :
    Agree p hidden (a.endPage q) (b.endPage q) := by
  refine ⟨fun r hr => ?_, ?_, fun n hn => ?_, ?_, ?_⟩
  · rw [get?_endPage, get?_endPage, h.openPages r hr]
  · rw [endPage_failedPages, endPage_failedPages]
    exact h.failedPages
  · rw [endPage_store, endPage_store]
    exact h.store n hn
  · rw [pagesOf_endPage, pagesOf_endPage, h.pages, h.openPages p (.inr rfl)]
  · simp only [failuresOf, endPage_failures]
    exact h.failures

theorem fail (h : Agree p hidden a b) (q : Nat) (segment : Option Nat) (error : DecodeError) :
    Agree p hidden (a.fail q segment error) (b.fail q segment error) := by
  refine ⟨fun r hr => ?_, ?_, fun n hn => ?_, ?_, ?_⟩
  · rw [get?_fail, get?_fail, h.openPages r hr]
  · rw [mem_failedPages_fail, mem_failedPages_fail, h.failedPages]
  · rw [fail_store, fail_store]
    exact h.store n hn
  · simp only [pagesOf, fail_pages]
    exact h.pages
  · have hf := h.failures
    simp only [failuresOf] at hf
    simp only [failuresOf, fail_failures, Array.filter_push, hf]

theorem lookup_eq (h : Agree p hidden a b) (shared : Option Store) {n : Nat} (hn : ¬hidden n) :
    Store.lookup n (a.stores shared) = Store.lookup n (b.stores shared) := by
  have hs := h.store n hn
  simp only [stores, Store.lookup, hs.get?_eq, hs.decoded]

end Agree

/-- A segment of the page, or of no page, can't tell apart what looks the same to the page. -/
theorem oblivious_agree (shared : Option Store) {segment : Segment}
    (hp : segment.header.page = 0 ∨ segment.header.page = p)
    (hn : ∀ n ∈ segment.header.referred, ¬hidden n) :
    Oblivious shared shared segment (Agree p hidden) where
  page_eq h := h.openPages _ hp
  lookup_eq h n hmem := h.lookup_eq shared (hn n hmem)
  passesOver_eq h := by
    rw [Bool.eq_iff_iff, passesOver_eq_true, passesOver_eq_true]
    rcases hp with h0 | heq
    · simp [h0]
    · rw [heq, h.failedPages]
  setPage h page := h.setPage _ page
  endPage h := h.endPage _
  fail h error := h.fail _ _ error
  setStore {a b} h s t hothers hown := h.setStore fun n hvisible => by
    by_cases hnumber : n = segment.header.number
    · exact hnumber ▸ hown (h.store _ (hnumber ▸ hvisible))
    · obtain ⟨hs, ht⟩ := hothers n hnumber
      exact hs.trans ((h.store n hvisible).trans ht.symm)

/-! ## Segments of other pages -/

section Other

variable (h : Agree p hidden a b) {q : Nat} (hq : q ≠ 0 ∧ q ≠ p)

include hq in
theorem ne_of_visible {r : Nat} (hr : r = 0 ∨ r = p) : r ≠ q :=
  hr.elim (fun h0 => h0 ▸ hq.1.symm) fun hp => hp ▸ hq.2.symm

include h hq

theorem agree_fail_other (segment : Option Nat) (error : DecodeError) :
    Agree p hidden (a.fail q segment error) b := by
  refine ⟨fun r hr => ?_, ?_, fun n hn => ?_, ?_, ?_⟩
  · rw [get?_fail, if_neg fun he => ne_of_visible hq hr he.1]
    exact h.openPages r hr
  · rw [mem_failedPages_fail, ← h.failedPages]
    exact ⟨fun hf => hf.resolve_right fun he => hq.2 he.1.symm, .inl⟩
  · rw [fail_store]
    exact h.store n hn
  · rw [pagesOf, fail_pages]
    exact h.pages
  · have hf := h.failures
    simp only [failuresOf] at hf
    simp [failuresOf, hf, hq.2]

theorem agree_setPage_other (page : OpenPage) : Agree p hidden (a.setPage q page) b := by
  refine ⟨fun r hr => ?_, h.failedPages, h.store, h.pages, h.failures⟩
  rw [Assembly.setPage, Numbered.get?_insert_of_ne (ne_of_visible hq hr)]
  exact h.openPages r hr

theorem agree_endPage_other : Agree p hidden (a.endPage q) b := by
  refine ⟨fun r hr => ?_, ?_, fun n hn => ?_, ?_, ?_⟩
  · rw [get?_endPage, if_neg (ne_of_visible hq hr)]
    exact h.openPages r hr
  · rw [endPage_failedPages]
    exact h.failedPages
  · rw [endPage_store]
    exact h.store n hn
  · rw [pagesOf_endPage, if_neg hq.2.symm, Array.append_empty]
    exact h.pages
  · rw [failuresOf, endPage_failures]
    exact h.failures

theorem agree_of_local {n : Nat} (hl : Local q n a c) (hn : hidden n) : Agree p hidden c b := by
  refine ⟨fun r hr => ?_, ?_, fun m hm => ?_, ?_, ?_⟩
  · rw [hl.others r (ne_of_visible hq hr)]
    exact h.openPages r hr
  · rw [hl.failedPages]
    exact h.failedPages
  · refine (hl.store m ?_).trans (h.store m hm)
    rintro rfl
    exact hm hn
  · rw [pagesOf, hl.pages]
    exact h.pages
  · rw [failuresOf, hl.failures]
    exact h.failures

theorem agree_process_other (settings : DecodeSettings) (shared : Option Store)
    {segment : Segment} (hpage : segment.header.page = q) (hn : hidden segment.header.number) :
    Agree p hidden (a.process settings shared segment) b := by
  rcases processed_process settings shared segment a with ⟨-, eq⟩ | ⟨-, c, ok, eq⟩ | ⟨-, e, -, eq⟩
  · rwa [eq]
  · have hc : Agree p hidden c b := by
      rcases decoded_of_decode ok with ⟨page, -, -, rfl⟩ | ⟨-, -, rfl⟩ | ⟨-, hlocal⟩
      · exact agree_setPage_other h (hpage ▸ hq) page
      · exact agree_endPage_other h (hpage ▸ hq)
      · exact agree_of_local h (hpage ▸ hq) hlocal hn
    rw [eq]
    refine hc.setStore fun n hm => ?_
    refine (sameAt_noteDecoded_of_ne ?_).trans (hc.store n hm)
    rintro rfl
    exact hm hn
  · rw [eq, hpage]
    exact agree_fail_other h hq _ _

end Other

end Assembly

/-! ## Runs -/

namespace StreamItem

/-- The page to which an item belongs, 0 if to none. -/
def page : StreamItem → Nat
  | .segment s => s.header.page
  | .invalid header _ => header.page
  | .broken header _ => (header.map (·.page)).getD 0

/-- Whether an item belongs to a page or to no page. -/
def concerns (p : Nat) (item : StreamItem) : Bool := item.page = 0 || item.page = p

end StreamItem

namespace Stream

/-- A stream that can be read to its end: no item breaks it off, and only the last segment may be
the end of the file. -/
structure Complete (items : List StreamItem) : Prop where
  not_broken : ∀ header error, .broken header error ∉ items
  last : ∀ segment rest, .segment segment :: rest <:+ items →
    segment.header.kind = .endOfFile → rest = []

/-- A segment refers to no segment of another page. -/
def Sealed (items : List StreamItem) : Prop :=
  ∀ s t, .segment s ∈ items → .segment t ∈ items → t.header.number ∈ s.header.referred →
    t.header.page = s.header.page ∨ t.header.page = 0

namespace Complete

variable {item : StreamItem} {items : List StreamItem}

theorem of_cons (h : Complete (item :: items)) : Complete items where
  not_broken header error hmem := h.not_broken header error (List.mem_cons_of_mem _ hmem)
  last segment rest hrest := h.last segment rest (hrest.trans (List.suffix_cons _ _))

theorem filter (h : Complete items) (f : StreamItem → Bool) : Complete (items.filter f) where
  not_broken header error hmem := h.not_broken header error (List.mem_of_mem_filter hmem)
  last segment rest hrest hkind := by
    obtain ⟨l, hl, heq⟩ := List.suffix_filter_iff.mp hrest
    obtain ⟨skipped, l', rfl, -, -, rfl⟩ := List.filter_eq_cons_iff.mp heq.symm
    rw [h.last segment l' ((List.suffix_append skipped _).trans hl) hkind]
    rfl

end Complete

end Stream

namespace Assembly

variable (settings : DecodeSettings) (shared : Option Store)

/-- Deal with an item that doesn't break off the stream. -/
def take (a : Assembly) : StreamItem → Assembly
  | .segment segment => a.process settings shared segment
  | .invalid header error => a.fail header.page (some header.number) error
  | .broken _ _ => a

theorem run_eq_foldl (a : Assembly) {items : List StreamItem} (h : Stream.Complete items) :
    run settings shared a items = (items.foldl (take settings shared) a).endAll := by
  induction items generalizing a with
  | nil => rfl
  | cons item items ih =>
    cases item with
    | segment segment =>
      unfold run
      dsimp only
      split
      · next hends =>
        have hkind : segment.header.kind = .endOfFile := by
          simp only [ends, Bool.and_eq_true, decide_eq_true_eq] at hends
          exact hends.1
        rw [h.last segment items List.suffix_rfl hkind]
        rfl
      · exact ih _ h.of_cons
    | invalid header error => exact ih _ h.of_cons
    | broken header error => exact absurd List.mem_cons_self (h.not_broken header error)

section

variable {a b : Assembly} {p : Nat}

theorem pagesOf_foldl_endPage {numbers : List Nat} (h : numbers.Nodup) :
    (numbers.foldl endPage a).pagesOf p = a.pagesOf p ++
      if p ∈ numbers then ((a.openPages[p]?).map (·.finish p)).toArray else #[] := by
  induction numbers generalizing a with
  | nil => simp
  | cons number numbers ih =>
    obtain ⟨hnot, hnodup⟩ := List.nodup_cons.mp h
    rw [List.foldl_cons, ih hnodup, pagesOf_endPage, get?_endPage]
    by_cases hp : p = number
    · subst hp
      simp [hnot]
    · simp [hp]

theorem pagesOf_endAll : a.endAll.pagesOf p =
    a.pagesOf p ++ ((a.openPages[p]?).map (·.finish p)).toArray := by
  rw [endAll, pagesOf_foldl_endPage a.nodup_openNumbers]
  by_cases hp : p ∈ a.openPages
  · rw [if_pos (mem_openNumbers.mpr hp)]
  · rw [if_neg fun hk => hp (mem_openNumbers.mp hk), Std.ExtTreeMap.getElem?_eq_none hp]
    rfl

theorem failuresOf_endAll : a.endAll.failuresOf p = a.failuresOf p := by
  rw [failuresOf, endAll_failures, failuresOf]

/-- Without the items of other pages, page `p` goes through assemblies that look the same to it. -/
theorem agree_foldl {hidden : Nat → Prop} (h : Agree p hidden a b) {items : List StreamItem}
    (hvisible : ∀ s, .segment s ∈ items → s.header.page = 0 ∨ s.header.page = p →
      ∀ n ∈ s.header.referred, ¬hidden n)
    (hhidden : ∀ s, .segment s ∈ items → s.header.page ≠ 0 ∧ s.header.page ≠ p →
      hidden s.header.number) :
    Agree p hidden (items.foldl (take settings shared) a)
      ((items.filter (·.concerns p)).foldl (take settings shared) b) := by
  induction items generalizing a b with
  | nil => exact h
  | cons item items ih =>
    have hv' := fun s hs => hvisible s (List.mem_cons_of_mem _ hs)
    have hh' := fun s hs => hhidden s (List.mem_cons_of_mem _ hs)
    by_cases hpage : item.page = 0 ∨ item.page = p
    · have hkeep : item.concerns p = true := by simpa [StreamItem.concerns] using hpage
      rw [List.filter_cons_of_pos hkeep]
      refine ih ?_ hv' hh'
      cases item with
      | segment segment =>
        exact (oblivious_agree shared hpage (hvisible _ List.mem_cons_self hpage)).process h settings
      | invalid header error => exact h.fail _ _ _
      | broken header error => exact h
    · have hdrop : ¬item.concerns p = true := by simpa [StreamItem.concerns] using hpage
      rw [List.filter_cons_of_neg hdrop]
      refine ih ?_ hv' hh'
      have hother := not_or.mp hpage
      cases item with
      | segment segment =>
        exact agree_process_other h hother settings shared rfl
          (hhidden _ List.mem_cons_self hother)
      | invalid header error => exact agree_fail_other h hother _ _
      | broken header error => exact h

/-- Page `p` comes out the same without the segments of other pages. -/
theorem run_filter {items : List StreamItem} (hcomplete : Stream.Complete items)
    (hsealed : Stream.Sealed items) (p : Nat) :
    let whole := run settings shared {} items
    let part := run settings shared {} (items.filter (·.concerns p))
    whole.pagesOf p = part.pagesOf p ∧ whole.failuresOf p = part.failuresOf p := by
  let hidden (n : Nat) : Prop := ∃ t, .segment t ∈ items ∧ t.header.number = n ∧
    t.header.page ≠ 0 ∧ t.header.page ≠ p
  have hvisible : ∀ s, .segment s ∈ items → s.header.page = 0 ∨ s.header.page = p →
      ∀ n ∈ s.header.referred, ¬hidden n := by
    rintro s hs hpage n hn ⟨t, ht, rfl, h0, hne⟩
    rcases hsealed s t hs ht hn with hsame | hzero
    · rw [hsame] at h0 hne
      exact hpage.elim h0 hne
    · exact h0 hzero
  have hhidden : ∀ s, .segment s ∈ items → s.header.page ≠ 0 ∧ s.header.page ≠ p →
      hidden s.header.number := fun s hs hpage => ⟨s, hs, rfl, hpage⟩
  have hagree := agree_foldl settings shared (Agree.refl p hidden {}) hvisible hhidden
  rw [run_eq_foldl settings shared _ hcomplete, run_eq_foldl settings shared _ (hcomplete.filter _)]
  dsimp only
  rw [pagesOf_endAll, pagesOf_endAll, failuresOf_endAll, failuresOf_endAll]
  rw [hagree.pages, hagree.openPages p (.inr rfl), hagree.failures]
  exact ⟨rfl, rfl⟩

/-- A dictionary of no page, and two pages whose segments alternate. Each has a text region that draws
the black pixel of the dictionary, one on the left and one on the right. -/
theorem run_filter_twoPages :
    let header (number : Nat) (kind : SegmentKind) (referred : List Nat) (page : Nat) :
      SegmentHeader := ⟨number, kind, false, [], referred, page, none⟩
    let info : Bytes := #[0, 0, 0, 2, 0, 0, 0, 1, 0, 0, 0, 0, 0, 0, 0, 0, 67, 0, 0]
    let text (x : UInt8) : Bytes := #[0, 0, 0, 1, 0, 0, 0, 1, 0, 0, 0, x, 0, 0, 0, 0, 0, 0, 16, 0,
      0, 0, 1, 169, 67, 255, 172]
    let segments : List Segment := [
      ⟨header 0 .symbolDictionary [] 0, #[0, 1, 0, 0, 0, 1, 0, 0, 0, 1, 95, 128, 128, 0, 64]⟩,
      ⟨header 1 .pageInformation [] 1, info⟩, ⟨header 2 .pageInformation [] 2, info⟩,
      ⟨header 3 (.region .text .immediate) [0] 2, text 1⟩,
      ⟨header 4 (.region .text .immediate) [0] 1, text 0⟩,
      ⟨header 5 .endOfPage [] 2, #[]⟩, ⟨header 6 .endOfPage [] 1, #[]⟩,
      ⟨header 7 .endOfFile [] 0, #[]⟩]
    let items := segments.map StreamItem.segment
    let whole := run {} none {} items
    let part := run {} none {} (items.filter (·.concerns 1))
    let pixels (page : Page) := (page.number, page.bitmap.get 0 0, page.bitmap.get 1 0)
    whole.pages.map pixels = #[(2, false, true), (1, true, false)] ∧
      part.pages.map pixels = #[(1, true, false)] ∧
      whole.pagesOf 1 = part.pagesOf 1 ∧ whole.failuresOf 1 = part.failuresOf 1 := by
  intro header info text segments items whole part pixels
  have hcomplete : Stream.Complete items := by
    refine ⟨by simp [items], fun segment rest hrest hkind => ?_⟩
    simp only [items, segments, List.map_cons, List.map_nil, List.suffix_cons_iff,
      List.suffix_nil] at hrest
    rcases hrest with heq | heq | heq | heq | heq | heq | heq | heq | heq <;> cases heq
    all_goals first | rfl | cases hkind
  have hsealed : Stream.Sealed items := by
    have hall : ∀ s ∈ segments, ∀ t ∈ segments, t.header.number ∈ s.header.referred →
        t.header.page = s.header.page ∨ t.header.page = 0 := by decide
    intro s t hs ht href
    simp only [items, List.mem_map, StreamItem.segment.injEq, exists_eq_right] at hs ht
    exact hall s hs t ht href
  exact ⟨by decide +kernel, by decide +kernel, run_filter {} none hcomplete hsealed 1⟩
end

end Assembly
end Bilevel

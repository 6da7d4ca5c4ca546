import Bilevel.Document.Decode
import Bilevel.Proofs.Document.Isolation
import Bilevel.Proofs.Document.Lifecycle
import Bilevel.Proofs.Segment.Append

/-!
# Shared segments

Segments of no page that several streams share can be decoded once, beforehand. What comes of a
stream is the same as if they stood in front of it: a run that looks first in its own store and then
in a shared one finds what a run finds that has put both into one store.

## Main definitions

* `Stream.Shareable` — a stream of segments of no page that can be continued.
* `Assembly.Joins` — an assembly with a shared store, and one that has stored the same itself.

## Main results

* `Assembly.run_append` — a run over a stream that is continued.
* `Document.ofItems_append` — shared segments are as good as segments in front.
-/

namespace Bilevel

namespace Stream

/-- A stream of segments of no page that can be continued. -/
structure Shareable (items : List StreamItem) : Prop where
  continues : ∀ item ∈ items, item.Continues
  page : ∀ item ∈ items, item.page = 0

theorem Shareable.of_cons {item : StreamItem} {items : List StreamItem}
    (h : Shareable (item :: items)) : Shareable items :=
  ⟨fun item hmem => h.continues item (List.mem_cons_of_mem _ hmem),
    fun item hmem => h.page item (List.mem_cons_of_mem _ hmem)⟩

/-- The numbers of the segments in a stream. -/
def Numbers (items : List StreamItem) (n : Nat) : Prop :=
  ∃ s, .segment s ∈ items ∧ s.header.number = n

/-- A segment that isn't valid is no segment of the stream. -/
theorem valid_of_mem_interleaved {limit : Nat} {r : Reader} {s : Segment}
    (h : .segment s ∈ interleaved limit r) : s.header.validate = .ok () :=
  forall_interleaved checked_itemOf (fun _ _ => trivial) limit r _ h

end Stream

theorem SegmentHeader.pageBound_of_validate {h : SegmentHeader} (hvalid : h.validate = .ok ())
    (hpage : h.page = 0) : h.kind.pageBound = false :=
  Bool.eq_false_iff.mpr fun hbound => (validate_eq_ok_iff.mp hvalid).2 hbound hpage

namespace Assembly

variable {settings : DecodeSettings} {shared : Option Store} {a b : Assembly}

/-! ## Shared segments by themselves -/

/-- A run over a stream that is continued. -/
theorem run_append {items : List StreamItem} (h : ∀ item ∈ items, item.Continues)
    (rest : List StreamItem) :
    run settings shared a (items ++ rest) =
      run settings shared (items.foldl (take settings shared) a) rest := by
  induction items generalizing a with
  | nil => rfl
  | cons item items ih =>
    have hrest := fun a => ih (a := a) fun item hmem => h item (List.mem_cons_of_mem _ hmem)
    have hitem := h item List.mem_cons_self
    cases item with
    | segment s =>
      have hends : a.ends s = false := by
        unfold ends
        rw [decide_eq_false hitem, Bool.false_and]
      rw [List.cons_append, run, hends]
      exact hrest _
    | invalid header error => exact hrest _
    | broken header error => exact hitem.elim

/-- No page was opened or has failed, and at most the segments with the given numbers were stored. -/
structure Pageless (numbers : Nat → Prop) (a : Assembly) : Prop where
  openPages : a.openPages = ∅
  failedPages : a.failedPages = ∅
  pages : a.pages = #[]
  store : ∀ n, ¬numbers n → SameAt n a.store {}

theorem Pageless.empty (numbers : Nat → Prop) : Pageless numbers {} :=
  ⟨rfl, rfl, rfl, fun _ _ => .refl _ _⟩

/-- There is no page to end. -/
theorem Pageless.endAll_eq {numbers : Nat → Prop} (h : Pageless numbers a) : a.endAll = a := by
  have hkeys : a.openNumbers = [] := by
    unfold openNumbers
    rw [h.openPages]
    simp
  unfold endAll
  rw [hkeys]
  rfl

theorem Pageless.fail {numbers : Nat → Prop} (h : Pageless numbers a) (segment : Option Nat)
    (error : DecodeError) : Pageless numbers (a.fail 0 segment error) :=
  ⟨h.openPages, h.failedPages, h.pages, h.store⟩

/-- A segment of no page opens no page. -/
theorem Pageless.process {numbers : Nat → Prop} (h : Pageless numbers a) {s : Segment}
    (hvalid : s.header.validate = .ok ()) (hpage : s.header.page = 0)
    (hnumber : numbers s.header.number) : Pageless numbers (a.process settings shared s) := by
  have hbound := SegmentHeader.pageBound_of_validate hvalid hpage
  rcases processed_process settings shared s a with ⟨-, heq⟩ | ⟨-, c, hc, heq⟩ | ⟨-, e, -, heq⟩
  · rwa [heq]
  · rcases decoded_of_decode hc with ⟨page, hkind, -, -⟩ | ⟨hkind, -, -⟩ | ⟨-, hlocal⟩
    · rw [hkind] at hbound
      cases hbound
    · rw [hkind] at hbound
      cases hbound
    · rw [heq]
      refine ⟨?_, hlocal.failedPages.trans h.failedPages, hlocal.pages.trans h.pages, fun n hn => ?_⟩
      · refine Std.ExtTreeMap.eq_empty_iff_forall_not_mem.mpr fun q hq => ?_
        have hq : q ∈ a.openPages := (hlocal.open_iff q).mp hq
        rw [h.openPages] at hq
        exact Std.ExtTreeMap.not_mem_empty hq
      · have hne : n ≠ s.header.number := fun heq => hn (heq ▸ hnumber)
        exact (sameAt_noteDecoded_of_ne hne).trans ((hlocal.store n hne).trans (h.store n hn))
  · rw [heq, hpage]
    exact h.fail _ _

theorem pageless_foldl {numbers : Nat → Prop} {items : List StreamItem} (h : Pageless numbers a)
    (hshareable : Stream.Shareable items)
    (hvalid : ∀ s, .segment s ∈ items → s.header.validate = .ok ())
    (hnumbers : ∀ s, .segment s ∈ items → numbers s.header.number) :
    Pageless numbers (items.foldl (take settings shared) a) := by
  induction items generalizing a with
  | nil => exact h
  | cons item items ih =>
    have hitem := hshareable.page item List.mem_cons_self
    refine ih ?_ hshareable.of_cons (fun s hs => hvalid s (List.mem_cons_of_mem _ hs))
      fun s hs => hnumbers s (List.mem_cons_of_mem _ hs)
    cases item with
    | segment s => exact h.process (hvalid s List.mem_cons_self) hitem (hnumbers s List.mem_cons_self)
    | invalid header error =>
      have hheader : header.page = 0 := hitem
      have hfail := h.fail (some header.number) error
      rwa [← hheader] at hfail
    | broken header error => exact h

/-! ## A store of one's own -/

/-- The first assembly goes with shared segments, whose numbers are given; the second one has them
in its own store. -/
structure Joins (numbers : Nat → Prop) (globals : Globals) (a b : Assembly) : Prop where
  openPages : a.openPages = b.openPages
  failedPages : a.failedPages = b.failedPages
  pages : b.pages = a.pages
  failures : b.failures = globals.failures ++ a.failures
  shared : ∀ n, numbers n → SameAt n a.store {} ∧ SameAt n b.store globals.store
  own : ∀ n, ¬numbers n → SameAt n globals.store {} ∧ SameAt n a.store b.store

namespace Joins

variable {numbers : Nat → Prop} {globals : Globals} (h : Joins numbers globals a b)

include h

theorem setPage (number : Nat) (page : OpenPage) :
    Joins numbers globals (a.setPage number page) (b.setPage number page) :=
  ⟨by simp only [Assembly.setPage, h.openPages], h.failedPages, h.pages, h.failures, h.shared, h.own⟩

theorem endPage (number : Nat) : Joins numbers globals (a.endPage number) (b.endPage number) := by
  obtain ⟨hopen, hfailed, hpages, hfailures, hshared, hown⟩ := h
  unfold Assembly.endPage
  rw [hopen, hpages]
  split
  · exact ⟨rfl, hfailed, rfl, hfailures, hshared, hown⟩
  · exact ⟨hopen, hfailed, hpages, hfailures, hshared, hown⟩

theorem fail (page : Nat) (segment : Option Nat) (error : DecodeError) :
    Joins numbers globals (a.fail page segment error) (b.fail page segment error) := by
  obtain ⟨hopen, hfailed, hpages, hfailures, hshared, hown⟩ := h
  have hpush : b.failures.push ⟨page, segment, error⟩ =
      globals.failures ++ a.failures.push ⟨page, segment, error⟩ := by
    rw [hfailures, Array.append_push]
  unfold Assembly.fail
  dsimp only
  split
  · exact ⟨hopen, hfailed, hpages, hpush, hshared, hown⟩
  · exact ⟨congrArg (·.erase page) hopen, congrArg (·.insert page) hfailed, hpages, hpush, hshared,
      hown⟩

theorem openNumbers_eq : a.openNumbers = b.openNumbers := congrArg (·.keys) h.openPages

theorem endAll : Joins numbers globals a.endAll b.endAll := by
  unfold Assembly.endAll
  rw [h.openNumbers_eq]
  generalize b.openNumbers = list
  induction list generalizing a b with
  | nil => exact h
  | cons number list ih => exact ih (h.endPage number)

theorem failAll (page : Nat) (segment : Option Nat) (error : DecodeError) :
    Joins numbers globals (a.failAll page segment error) (b.failAll page segment error) := by
  unfold Assembly.failAll
  rw [h.openNumbers_eq]
  dsimp only
  generalize (if b.openNumbers.isEmpty then [page] else b.openNumbers) = list
  induction list generalizing a b with
  | nil => exact h
  | cons number list ih => exact ih (h.fail number segment error)

/-- What is found first in the own store and then in the shared one. -/
theorem lookup_eq (n : Nat) : Store.lookup n (a.stores (some globals.store)) =
    Store.lookup n (b.stores none) := by
  have hempty : ({} : Store).get? n = none := by
    unfold Store.get?
    simp
  have hnot : n ∉ ({} : Store).decoded := Std.ExtTreeSet.not_mem_empty
  by_cases hn : numbers n
  · -- Nothing is found in the own store, so the shared one decides.
    obtain ⟨ha, hb⟩ := h.shared n hn
    simp only [stores, Option.toList, Store.lookup, ha.get?_eq, ha.decoded, hempty, hnot, if_false,
      hb.get?_eq, hb.decoded]
  · -- Nothing would be found in the shared store.
    obtain ⟨hg, ha⟩ := h.own n hn
    simp only [stores, Option.toList, Store.lookup, hg.get?_eq, hg.decoded, hempty, hnot, if_false,
      ha.get?_eq, ha.decoded]

end Joins

/-- A segment that isn't among the shared ones doesn't see where they are stored. -/
theorem oblivious_joins {numbers : Nat → Prop} (globals : Globals) {segment : Segment}
    (hn : ¬numbers segment.header.number) :
    Oblivious (some globals.store) none segment (Joins numbers globals) where
  page_eq h := by rw [h.openPages]
  lookup_eq h n _ := h.lookup_eq n
  passesOver_eq h := by rw [passesOver, passesOver, h.failedPages]
  setPage h page := h.setPage _ page
  endPage h := h.endPage _
  fail h error := h.fail _ _ error
  setStore {a b} h s t hothers hown := by
    refine ⟨h.openPages, h.failedPages, h.pages, h.failures, fun n hshared => ?_, fun n hnot => ?_⟩
    · have hne : n ≠ segment.header.number := fun heq => hn (heq ▸ hshared)
      obtain ⟨hs, ht⟩ := hothers n hne
      obtain ⟨ha, hb⟩ := h.shared n hshared
      exact ⟨hs.trans ha, ht.trans hb⟩
    · obtain ⟨hglobals, hab⟩ := h.own n hnot
      refine ⟨hglobals, ?_⟩
      by_cases hnumber : n = segment.header.number
      · exact hnumber ▸ hown (hnumber ▸ hab)
      · obtain ⟨hs, ht⟩ := hothers n hnumber
        exact hs.trans (hab.trans ht.symm)

variable (settings) in
/-- Runs with shared segments and with segments of one's own go alike. -/
theorem joins_run {numbers : Nat → Prop} {globals : Globals} (h : Joins numbers globals a b)
    {items : List StreamItem} (hn : ∀ s, .segment s ∈ items → ¬numbers s.header.number) :
    Joins numbers globals (run settings (some globals.store) a items)
      (run settings none b items) := by
  induction items generalizing a b with
  | nil => exact h.endAll
  | cons item items ih =>
    have hrest := fun s hs => hn s (List.mem_cons_of_mem _ hs)
    cases item with
    | segment s =>
      have hsegment := oblivious_joins globals (hn s List.mem_cons_self)
      have hnext := hsegment.process h settings
      have hends : a.ends s = b.ends s := by rw [ends, ends, hsegment.passesOver_eq h]
      unfold run
      dsimp only
      rw [hends]
      split
      · exact hnext.endAll
      · exact ih hnext hrest
    | invalid header error => exact ih (h.fail _ _ _) hrest
    | broken header error => exact h.failAll _ _ _

end Assembly

namespace Document

open Assembly

/-- What comes of a stream with shared segments is what comes of the shared segments and the stream
one after the other. -/
theorem ofItems_append (settings : DecodeSettings) {shared own : Bytes}
    (hshareable : Stream.Shareable (Stream.embedded shared))
    (hnumbers : ∀ s t, .segment s ∈ Stream.embedded shared → .segment t ∈ Stream.embedded own →
      s.header.number ≠ t.header.number) :
    let globals := Globals.ofBytes settings shared
    let apart := ofItems settings (some globals) (Stream.embedded own)
    let joined := ofItems settings none (Stream.embedded (shared ++ own))
    joined.pages = apart.pages ∧ joined.failures = globals.failures ++ apart.failures ∧
      ∀ n dictionary, joined.symbolDictionary? n = some dictionary ↔
        globals.symbolDictionary? n = some dictionary ∨
          apart.symbolDictionary? n = some dictionary := by
  intro globals apart joined
  let numbers := Stream.Numbers (Stream.embedded shared)
  let first := (Stream.embedded shared).foldl (take settings none) {}
  have hpageless : Pageless numbers first :=
    pageless_foldl (.empty numbers) hshareable (fun s hs => Stream.valid_of_mem_interleaved hs)
      fun s hs => ⟨s, hs, rfl⟩
  have hglobals : globals = ⟨first.store, first.failures⟩ := by
    have hrun : run settings none {} (Stream.embedded shared) = first := by
      have hrest : run settings none {} (Stream.embedded shared ++ []) =
          run settings none first [] := run_append hshareable.continues []
      rw [List.append_nil] at hrest
      exact hrest.trans hpageless.endAll_eq
    exact congrArg (fun a => Globals.mk a.store a.failures) hrun
  have hstart : Joins numbers globals {} first := by
    rw [hglobals]
    exact ⟨hpageless.openPages.symm, hpageless.failedPages.symm, hpageless.pages,
      Array.append_empty.symm, fun n _ => ⟨.refl _ _, .refl _ _⟩,
      fun n hn => ⟨hpageless.store n hn, (hpageless.store n hn).symm⟩⟩
  have hown : ∀ t, .segment t ∈ Stream.embedded own → ¬numbers t.header.number :=
    fun t ht ⟨s, hs, heq⟩ => hnumbers s t hs ht heq
  have hjoins := joins_run settings hstart hown
  have hrun : run settings none {} (Stream.embedded (shared ++ own)) =
      run settings none first (Stream.embedded own) := by
    rw [Stream.embedded_append hshareable.continues, run_append hshareable.continues]
  have hjoined : joined =
      let b := run settings none first (Stream.embedded own)
      ⟨b.pages, b.failures, b.store.dictionaries⟩ :=
    congrArg (fun b => Document.mk b.pages b.failures b.store.dictionaries) hrun
  rw [hjoined]
  refine ⟨hjoins.pages, hjoins.failures, fun n dictionary => ?_⟩
  have hempty : ({} : Store).dictionaries[n]? = none := Std.ExtTreeMap.getElem?_empty
  unfold symbolDictionary? Globals.symbolDictionary?
  by_cases hn : numbers n
  · obtain ⟨ha, hb⟩ := hjoins.shared n hn
    have hnone : apart.dictionaries[n]? = none := ha.dictionaries.trans hempty
    rw [hb.dictionaries, hnone]
    simp
  · obtain ⟨hg, hab⟩ := hjoins.own n hn
    rw [hg.dictionaries, hempty, ← hab.dictionaries]
    exact ⟨.inr, fun h => h.resolve_left (by simp)⟩

/-- A dictionary and a segment that fails are shared, and a text region refers to the dictionary. -/
theorem ofItems_append_text :
    let shared : Bytes := #[0, 0, 0, 0, 0, 1, 0, 0, 0, 0, 15, 0, 1, 0, 0, 0, 1, 0, 0, 0, 1, 95, 128,
      128, 0, 64, 0, 0, 0, 5, 16, 1, 0, 0, 0, 0, 0]
    let own : Bytes := #[0, 0, 0, 1, 48, 0, 1, 0, 0, 0, 19, 0, 0, 0, 4, 0, 0, 0, 2, 0, 0, 0, 0, 0, 0,
      0, 0, 67, 0, 0, 0, 0, 0, 2, 7, 34, 0, 1, 0, 0, 0, 27, 0, 0, 0, 4, 0, 0, 0, 2, 0, 0, 0, 0, 0, 0,
      0, 0, 0, 0, 16, 0, 0, 0, 1, 165, 175, 255, 172]
    let globals := Globals.ofBytes {} shared
    let apart := ofItems {} (some globals) (Stream.embedded own)
    let joined := ofItems {} none (Stream.embedded (shared ++ own))
    (Stream.Shareable (Stream.embedded shared) ∧ ∀ s t, .segment s ∈ Stream.embedded shared →
      .segment t ∈ Stream.embedded own → s.header.number ≠ t.header.number) ∧
    (globals.failures.size = 1 ∧ apart.pages.size = 1) ∧
    joined.pages = apart.pages ∧ joined.failures = globals.failures ++ apart.failures ∧
      ∀ n dictionary, joined.symbolDictionary? n = some dictionary ↔
        globals.symbolDictionary? n = some dictionary ∨
          apart.symbolDictionary? n = some dictionary := by
  intro shared own globals apart joined
  have hshareable : Stream.Shareable (Stream.embedded shared) :=
    ⟨by decide +kernel, by decide +kernel⟩
  let number? : StreamItem → Option Nat
    | .segment s => some s.header.number
    | _ => none
  have hshared : (Stream.embedded shared).filterMap number? = [0, 5] := by decide +kernel
  have hown : (Stream.embedded own).filterMap number? = [1, 2] := by decide +kernel
  have hnumbers : ∀ s t, .segment s ∈ Stream.embedded shared → .segment t ∈ Stream.embedded own →
      s.header.number ≠ t.header.number := by
    intro s t hs ht heq
    have hs' : s.header.number ∈ [0, 5] := hshared ▸ List.mem_filterMap.mpr ⟨_, hs, rfl⟩
    have ht' : t.header.number ∈ [1, 2] := hown ▸ List.mem_filterMap.mpr ⟨_, ht, rfl⟩
    rw [heq] at hs'
    simp only [List.mem_cons, List.not_mem_nil, or_false] at hs' ht'
    omega
  exact ⟨⟨hshareable, hnumbers⟩, ⟨by decide +kernel, by decide +kernel⟩,
    ofItems_append {} hshareable hnumbers⟩

end Document
end Bilevel

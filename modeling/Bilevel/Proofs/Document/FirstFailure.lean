import Bilevel.Proofs.Document.Visits

/-!
# The first failure of a page

A page fails with the first of its segments that can't be decoded or isn't valid, or when the stream
breaks off while the page is open. This failure is recorded first, with the number of the segment.
The segments of the page that come later are passed over, and a stream that breaks off then is a
failure of the pages that are open. So what else is recorded for the page comes from items that
aren't valid segments and after which the stream goes on, or from one that breaks it off while no
page is open.

## Main definitions

* `Assembly.FirstFailure` — the failures of a page, from the one at a given item on.

## Main results

* `Assembly.run_firstFailure` — the failures of a page that a run records.
-/

namespace Bilevel

namespace Assembly

/-- The failure of page `p` that an item can still be when the page has failed. A segment is none,
and neither is a stream that breaks off while other pages are open. -/
def Visit.unread? (p : Nat) (v : Visit) : Option PageFailure :=
  match v.item with
  | .segment _ => none
  | .invalid _ error => if v.item.page = p then some ⟨p, v.item.number?, error⟩ else none
  | .broken _ error =>
    if v.state.openNumbers = [] ∧ v.item.page = p then some ⟨p, v.item.number?, error⟩ else none

/-- Page `p` fails at the item `v` among those to which a run comes, and these are its failures. -/
structure FirstFailure (settings : DecodeSettings) (shared : Option Store) (p : Nat)
    (before : List Visit) (v : Visit) (later : List Visit) (failures : List PageFailure) : Prop where
  none_before : ∀ u ∈ before, u.state.failure? settings shared p u.item = none
  /-- The failure at `v` comes first. Segments don't add others, and neither does a stream that breaks
  off while other pages are open. -/
  first : ∃ failure others, failures = failure :: others ∧
    v.state.failure? settings shared p v.item = some failure ∧
    others.Sublist (later.filterMap (·.unread? p))
  /-- The segments of the page that come later don't change anything. -/
  passed : ∀ w ∈ later, ∀ s, w.item = .segment s → s.header.page = p →
    w.state.process settings shared s = w.state

variable {settings : DecodeSettings} {shared : Option Store} {a : Assembly} {p : Nat}
  {item : StreamItem}

/-- The segments of a page are passed over if the page has failed. -/
theorem Sound.passesOver_eq (h : a.Sound) (hp : p ≠ 0) : a.passesOver p = a.hasFailed p := by
  rw [Bool.eq_iff_iff, passesOver_eq_true, hasFailed_iff, h.failed_iff]
  grind

/-- Before the page has failed, none of its segments is passed over. -/
theorem added?_of_not_failed (hsound : a.Sound) (hp : p ≠ 0) (hnot : a.hasFailed p = false) :
    a.added? settings shared p item = a.failure? settings shared p item := by
  cases item with
  | segment s =>
    by_cases hs : s.header.page = p
    · have hover : a.passesOver s.header.page = false := by rw [hs, hsound.passesOver_eq hp, hnot]
      simp [added?, hover]
    · simp [added?, hs]
  | invalid header error => rfl
  | broken header error => rfl

/-! ## A page that has failed -/

section Failed

variable (hsound : a.Sound) (hp : p ≠ 0) (hfailed : a.hasFailed p = true)

include hsound hp hfailed

theorem passesOver_of_failed : a.passesOver p = true := (hsound.passesOver_eq hp).trans hfailed

theorem process_of_failed {s : Segment} (hs : s.header.page = p) :
    a.process settings shared s = a := by
  subst hs
  exact if_pos (passesOver_of_failed hsound hp hfailed)

/-- Only an item that isn't a segment adds to the failures of the page, and none does that breaks
off the stream while other pages are open. -/
theorem added?_of_failed : a.added? settings shared p item = Visit.unread? p ⟨a, item⟩ := by
  cases item with
  | segment s =>
    change a.added? settings shared p (.segment s) = none
    by_cases hs : s.header.page = p
    · subst hs
      exact if_pos (passesOver_of_failed hsound hp hfailed)
    · simp [added?, hs]
  | invalid header error => exact failure?_invalid header error
  | broken header error =>
    by_cases hempty : a.openNumbers = []
    · simp [added?, failure?, fault?, concerned, hempty, Visit.unread?, eq_comm]
    · have hclosed : p ∉ a.openNumbers := fun hopen => by
        rw [hsound.hasFailed_eq_false (mem_openNumbers.mp hopen)] at hfailed
        exact absurd hfailed (by decide)
      simp [added?, failure?, concerned, hempty, hclosed, Visit.unread?]

end Failed

/-- A page that has failed stays so. -/
theorem failed_visits (hsound : a.Sound) (hfailed : a.hasFailed p = true)
    {items : List StreamItem} (hc : ∀ item ∈ items, item.Checked) :
    ∀ v ∈ visits settings shared a items, v.state.Sound ∧ v.state.hasFailed p = true := by
  refine forall_visits (P := fun b => b.Sound ∧ b.hasFailed p = true) ⟨hsound, hfailed⟩ ?_
  intro v hv hon hb
  refine ⟨hb.1.take (hc v.item (mem_of_mem_visits hv)) settings shared, ?_⟩
  rw [hasFailed_take (whole_of_goesOn hon), hb.2, Bool.true_or]

/-- What items add to the failures of a page that has failed. -/
theorem recorded_of_failed {later : List Visit} (hp : p ≠ 0)
    (h : ∀ v ∈ later, v.state.Sound ∧ v.state.hasFailed p = true) :
    recorded settings shared p later = later.filterMap (·.unread? p) :=
  List.filterMap_congr fun v hv => added?_of_failed (h v hv).1 hp (h v hv).2

/-! ## Runs -/

/-- A page fails at the first of several items. -/
theorem firstFailure_head (hsound : a.Sound) (hp : p ≠ 0) (hnot : a.hasFailed p = false)
    {failure : PageFailure} (hfailure : a.failure? settings shared p item = some failure)
    {later : List Visit} (hlater : ∀ v ∈ later, v.state.Sound ∧ v.state.hasFailed p = true) :
    FirstFailure settings shared p [] ⟨a, item⟩ later
      (recorded settings shared p (⟨a, item⟩ :: later)) where
  none_before _ hu := (List.not_mem_nil hu).elim
  first := by
    refine ⟨failure, later.filterMap (·.unread? p), ?_, hfailure, List.Sublist.refl _⟩
    rw [← recorded_of_failed hp hlater]
    exact List.filterMap_cons_some ((added?_of_not_failed hsound hp hnot).trans hfailure)
  passed v hv _ _ hs := process_of_failed (hlater v hv).1 hp (hlater v hv).2 hs

/-- A page that hasn't failed doesn't fail at all, or at an item to which the run comes. -/
theorem exists_firstFailure (hsound : a.Sound) (hp : p ≠ 0) (hnot : a.hasFailed p = false)
    {items : List StreamItem} (hc : ∀ item ∈ items, item.Checked) :
    let visits := visits settings shared a items
    let failures := recorded settings shared p visits
    ((∀ v ∈ visits, v.state.failure? settings shared p v.item = none) ∧ failures = []) ∨
      ∃ before v later, visits = before ++ v :: later ∧
        FirstFailure settings shared p before v later failures := by
  induction items generalizing a with
  | nil => exact .inl ⟨fun v hv => (List.not_mem_nil hv).elim, rfl⟩
  | cons item items ih =>
    intro visits failures
    have hc' : ∀ item ∈ items, item.Checked := fun item hi => hc item (List.mem_cons_of_mem _ hi)
    have hnext := hsound.take (hc item List.mem_cons_self) settings shared
    have hadded : a.added? settings shared p item = a.failure? settings shared p item :=
      added?_of_not_failed hsound hp hnot
    have htake : a.goesOn item = true → (a.take settings shared item).hasFailed p =
        (a.failure? settings shared p item).isSome := by
      intro hon
      rw [hasFailed_take (whole_of_goesOn hon), hnot, hadded, Bool.false_or]
    let rest := if a.goesOn item then
      Assembly.visits settings shared (a.take settings shared item) items else []
    have hvisits : visits = ⟨a, item⟩ :: rest := rfl
    -- Either the page fails at this item, and stays failed, or the rest of the run decides.
    cases hfailure : a.failure? settings shared p item with
    | some failure =>
      have hlater : ∀ v ∈ rest, v.state.Sound ∧ v.state.hasFailed p = true := by
        cases hon : a.goesOn item with
        | false => simp [rest, hon]
        | true =>
          simp only [rest, hon, if_true]
          exact failed_visits hnext (by rw [htake hon, hfailure, Option.isSome_some]) hc'
      exact .inr ⟨[], ⟨a, item⟩, rest, rfl, firstFailure_head hsound hp hnot hfailure hlater⟩
    | none =>
      have hskip : failures = recorded settings shared p rest :=
        List.filterMap_cons_none (hadded.trans hfailure)
      rw [hskip, hvisits]
      cases hon : a.goesOn item with
      | false => exact .inl (by simp [rest, hon, hfailure, recorded])
      | true =>
        simp only [rest, hon, if_true]
        have hnot' := htake hon
        rw [hfailure, Option.isSome_none] at hnot'
        rcases ih hnext hnot' hc' with ⟨hnone, hempty⟩ | ⟨before, v, later, hlater, hfirst⟩
        · exact .inl ⟨List.forall_mem_cons.mpr ⟨hfailure, hnone⟩, hempty⟩
        · refine .inr ⟨⟨a, item⟩ :: before, v, later, by rw [hlater, List.cons_append], ?_⟩
          exact { hfirst with none_before := List.forall_mem_cons.mpr ⟨hfailure, hfirst.none_before⟩ }

/-- The failures of a page that a run records. There are none if the page fails at no item; else the
first is that of the first item at which it fails, the segments of the page that come later are
passed over, and others come from items that aren't valid segments, but not from one that breaks off
the stream while other pages are open. -/
theorem run_firstFailure (settings : DecodeSettings) (shared : Option Store)
    {items : List StreamItem} (h : ∀ item ∈ items, item.Checked) {p : Nat} (hp : p ≠ 0) :
    let visits := visits settings shared {} items
    let failures := ((run settings shared {} items).failuresOf p).toList
    ((∀ v ∈ visits, v.state.failure? settings shared p v.item = none) ∧ failures = []) ∨
      ∃ before v later, visits = before ++ v :: later ∧
        FirstFailure settings shared p before v later failures := by
  have hrun : ((run settings shared {} items).failuresOf p).toList =
      recorded settings shared p (visits settings shared {} items) := by
    have hempty : failuresOf {} p = #[] := rfl
    rw [failuresOf_run, hempty, Array.empty_append]
  rw [hrun]
  exact exists_firstFailure sound_empty hp (by simp [hasFailed]) h

/-- Page 1 fails at a page information segment without data, and its end is passed over. Then the
stream breaks off in a segment of page 1 while page 2 is open, which is no failure of page 1. -/
theorem run_firstFailure_withoutData :
    let header (number : Nat) (kind : SegmentKind) (page : Nat) : SegmentHeader :=
      ⟨number, kind, false, [], [], page, some 0⟩
    let items : List StreamItem := [.segment ⟨header 0 .pageInformation 1, #[]⟩,
      .segment ⟨header 1 .pageInformation 2,
        #[0, 0, 0, 1, 0, 0, 0, 1, 0, 0, 0, 0, 0, 0, 0, 0, 0, 0, 0]⟩,
      .segment ⟨header 2 .endOfPage 1, #[]⟩,
      .broken (some (header 3 (.region .text .immediate) 1)) .unexpectedEnd]
    ((∀ item ∈ items, item.Checked) ∧ 1 ≠ 0) ∧
      (run {} none {} items).failures =
        #[⟨1, some 0, .unexpectedEnd⟩, ⟨2, some 3, .unexpectedEnd⟩] ∧
      ∃ before v later, visits {} none {} items = before ++ v :: later ∧
        FirstFailure {} none 1 before v later ((run {} none {} items).failuresOf 1).toList := by
  intro header items
  have hchecked : ∀ item ∈ items, item.Checked := by
    simp [items, header, StreamItem.Checked, SegmentHeader.validate]
  have hfailures : ((run {} none {} items).failuresOf 1).toList ≠ [] := by decide +kernel
  rcases run_firstFailure {} none hchecked (by decide : 1 ≠ 0) with ⟨-, hempty⟩ | hfirst
  · exact absurd hempty hfailures
  · exact ⟨⟨hchecked, by decide⟩, by decide +kernel, hfirst⟩

/-- Two segments of page 1 aren't valid, and both failures are recorded. The stream breaks off in a
segment of page 2 while page 3 is open too, and the failure of page 3 names this segment. -/
theorem failuresOf_brokenOff :
    let items := Stream.embedded #[0, 0, 0, 0, 48, 0, 4, 0, 0, 0, 19, 0, 0, 0, 1, 0, 0, 0, 1, 0, 0,
      0, 0, 0, 0, 0, 0, 0, 0, 0, 0, 0, 0, 1, 49, 0, 4, 0, 0, 0, 0, 0, 0, 0, 2, 48, 0, 1, 0, 0, 0,
      19, 0, 0, 0, 1, 0, 0, 0, 1, 0, 0, 0, 0, 0, 0, 0, 0, 0, 0, 0, 0, 0, 0, 3, 6, 32, 9, 1, 0, 0, 0,
      0, 0, 0, 0, 4, 6, 32, 9, 1, 0, 0, 0, 0, 0, 0, 0, 5, 48, 0, 2, 0, 0, 0, 19, 0, 0, 0, 1, 0, 0,
      0, 1, 0, 0, 0, 0, 0, 0, 0, 0, 0, 0, 0, 0, 0, 0, 6, 48, 0, 3, 0, 0, 0, 19, 0, 0, 0, 1, 0, 0, 0,
      1, 0, 0, 0, 0, 0, 0, 0, 0, 0, 0, 0, 0, 0, 0, 7, 38, 0, 2, 0, 0, 0, 1]
    let final := run {} none {} items
    (final.failuresOf 1).size = 2 ∧ ∃ failure ∈ (final.failuresOf 3).toList,
      failure.segment = some 7 ∧ ∀ item ∈ items, item.page = 3 → item.number? ≠ failure.segment := by
  decide +kernel

end Assembly
end Bilevel

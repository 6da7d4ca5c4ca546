import Bilevel.Proofs.Document.Step
import Bilevel.Proofs.Segment.Items

/-!
# From the beginning of a page to its end

A run over the items of a stream is a list of actions, one after another. No action leaves a page
open that has failed, and none adds a page that has failed before. Every page information segment
that is decoded opens its page once, and the page is closed once: it is finished, or it fails.

## Main definitions

* `Assembly.actions` — what a run does, step by step.
* `Assembly.Sound` — what holds between any two actions.
* `Assembly.openings`, `Assembly.failedOpen` — how often a page is opened, and whether it fails
  while it is open.

## Main results

* `Assembly.run_lifecycle` — the invariant at every step of a run, and the balance of openings.
-/

namespace Bilevel

/-- A segment without a page isn't of a kind that needs one. -/
theorem page_ne_zero {header : SegmentHeader} (h : header.validate = .ok ())
    (hkind : header.kind.pageBound = true) : header.page ≠ 0 :=
  (SegmentHeader.validate_eq_ok_iff.mp h).2 hkind

namespace Assembly

/-! ## Actions -/

/-- A single step of a run. -/
inductive Action where
  | process (segment : Segment)
  | fail (page : Nat) (segment : Option Nat) (error : DecodeError)
  | endPage (number : Nat)

def Action.Checked : Action → Prop
  | .process segment => segment.header.validate = .ok ()
  | .fail _ _ _ | .endPage _ => True

section

variable (settings : DecodeSettings) (shared : Option Store)

def act (a : Assembly) : Action → Assembly
  | .process segment => a.process settings shared segment
  | .fail page segment error => a.fail page segment error
  | .endPage number => a.endPage number

def actAll (a : Assembly) (actions : List Action) : Assembly :=
  actions.foldl (act settings shared) a

/-- What ends all open pages. -/
def ending (a : Assembly) : List Action := a.openNumbers.map .endPage

/-- What lets all open pages fail, or the given page if none is open. -/
def breaking (a : Assembly) (page : Nat) (segment : Option Nat) (error : DecodeError) :
    List Action :=
  (if a.openNumbers.isEmpty then [page] else a.openNumbers).map (.fail · segment error)

/-- All that a run does. -/
def actions : Assembly → List StreamItem → List Action
  | a, [] => a.ending
  | a, .segment segment :: rest =>
    let next := a.process settings shared segment
    .process segment :: if a.ends segment then next.ending else actions next rest
  | a, .invalid header error :: rest =>
    .fail header.page (some header.number) error ::
      actions (a.fail header.page (some header.number) error) rest
  | a, .broken header error :: _ =>
    a.breaking ((header.map (·.page)).getD 0) (header.map (·.number)) error

theorem actAll_ending (a b : Assembly) : actAll settings shared a b.ending =
    b.openNumbers.foldl Assembly.endPage a := by
  rw [actAll, ending, List.foldl_map]
  rfl

theorem actAll_breaking (a : Assembly) (page : Nat) (segment : Option Nat) (error : DecodeError) :
    actAll settings shared a (a.breaking page segment error) = a.failAll page segment error := by
  rw [actAll, breaking, List.foldl_map]
  rfl

/-- A run is its actions, one after another. -/
theorem run_eq_actAll (a : Assembly) (items : List StreamItem) : run settings shared a items =
    actAll settings shared a (actions settings shared a items) := by
  induction items generalizing a with
  | nil => exact (actAll_ending settings shared a a).symm
  | cons item items ih =>
    cases item with
    | segment segment =>
      unfold run actions
      dsimp only
      split
      · exact (actAll_ending settings shared _ _).symm
      · exact ih _
    | invalid header error => exact ih _
    | broken header error => exact (actAll_breaking settings shared a _ _ _).symm

theorem checked_actions (a : Assembly) {items : List StreamItem}
    (h : ∀ item ∈ items, item.Checked) :
    ∀ action ∈ actions settings shared a items, action.Checked := by
  induction items generalizing a with
  | nil => simp [actions, ending, Action.Checked]
  | cons item items ih =>
    have hrest : ∀ item ∈ items, item.Checked := fun item hi => h item (List.mem_cons_of_mem _ hi)
    cases item with
    | segment segment =>
      intro action haction
      unfold actions at haction
      rcases List.mem_cons.mp haction with rfl | haction
      · exact h _ List.mem_cons_self
      · split at haction
        · obtain ⟨number, -, rfl⟩ := List.mem_map.mp haction
          trivial
        · exact ih _ hrest action haction
    | invalid header error =>
      intro action haction
      rcases List.mem_cons.mp haction with rfl | haction
      · trivial
      · exact ih _ hrest action haction
    | broken header error =>
      intro action haction
      obtain ⟨number, -, rfl⟩ := List.mem_map.mp haction
      trivial

end

/-! ## The invariant -/

/-- What holds between two actions. -/
structure Sound (a : Assembly) : Prop where
  zero_not_open : 0 ∉ a.openPages
  not_failed : ∀ p ∈ a.openPages, p ∉ a.failedPages
  failed_iff : ∀ p, p ∈ a.failedPages ↔ p ≠ 0 ∧ ∃ failure ∈ a.failures, failure.page = p

/-- Whether a failure of a page was recorded. -/
def hasFailed (a : Assembly) (p : Nat) : Bool := a.failures.any (·.page = p)

theorem hasFailed_iff {a : Assembly} {p : Nat} :
    a.hasFailed p = true ↔ ∃ failure ∈ a.failures, failure.page = p := by
  rw [hasFailed, Array.any_eq_true']
  simp

theorem sound_empty : Sound {} := by
  refine ⟨by simp, by simp, by simp⟩

namespace Sound

variable {a b : Assembly}

theorem endPage (h : a.Sound) (number : Nat) : (a.endPage number).Sound where
  zero_not_open hp := h.zero_not_open (mem_endPage.mp hp).1
  not_failed p hp := by
    rw [endPage_failedPages]
    exact h.not_failed p (mem_endPage.mp hp).1
  failed_iff p := by
    rw [endPage_failedPages, endPage_failures]
    exact h.failed_iff p

theorem fail (h : a.Sound) (page : Nat) (segment : Option Nat) (error : DecodeError) :
    (a.fail page segment error).Sound where
  zero_not_open hp := h.zero_not_open (mem_fail.mp hp).1
  not_failed p hp hf := by
    obtain ⟨hp, hne⟩ := mem_fail.mp hp
    rcases mem_failedPages_fail.mp hf with hf | ⟨he, h0⟩
    · exact h.not_failed p hp hf
    · exact h0 (hne he)
  failed_iff p := by
    rw [mem_failedPages_fail, h.failed_iff, fail_failures]
    simp only [Array.mem_push, or_and_right, exists_or, exists_eq_left]
    grind

/-- An open page hasn't failed. -/
theorem hasFailed_eq_false (h : a.Sound) {p : Nat} (hp : p ∈ a.openPages) :
    a.hasFailed p = false := by
  have h0 : p ≠ 0 := fun he => h.zero_not_open (he ▸ hp)
  have hnot := h.not_failed p hp
  rw [h.failed_iff, ← hasFailed_iff] at hnot
  simpa [h0] using hnot

theorem decoded (h : a.Sound) {segment : Segment} (hc : segment.header.validate = .ok ())
    (hover : a.passesOver segment.header.page = false) (hd : Decoded segment a b) : b.Sound := by
  cases hd with
  | opened page kind new eq =>
    have h0 : segment.header.page ≠ 0 := page_ne_zero hc (by rw [kind]; rfl)
    have hnot : segment.header.page ∉ a.failedPages := by
      intro hf
      rw [passesOver_eq_true.mpr ⟨h0, hf⟩] at hover
      exact absurd hover (by decide)
    subst eq
    refine ⟨fun hp => ?_, fun p hp => ?_, h.failed_iff⟩
    · rcases Numbered.mem_insert.mp hp with he | hp
      · exact h0 he.symm
      · exact h.zero_not_open hp
    · rcases Numbered.mem_insert.mp hp with rfl | hp
      · exact hnot
      · exact h.not_failed p hp
  | ended kind old eq => exact eq ▸ h.endPage _
  | kept kind eq =>
    refine ⟨fun hp => h.zero_not_open ((eq.open_iff 0).mp hp), fun p hp => ?_, fun p => ?_⟩
    · rw [eq.failedPages]
      exact h.not_failed p ((eq.open_iff p).mp hp)
    · rw [eq.failedPages, eq.failures]
      exact h.failed_iff p

theorem process (h : a.Sound) {segment : Segment} (hc : segment.header.validate = .ok ())
    (settings : DecodeSettings) (shared : Option Store) :
    (a.process settings shared segment).Sound := by
  rcases processed_process settings shared segment a with ⟨-, eq⟩ | ⟨passed, c, ok, eq⟩ | ⟨-, e, -, eq⟩
  · rwa [eq]
  · have hs := h.decoded hc passed (decoded_of_decode ok)
    rw [eq]
    exact ⟨hs.zero_not_open, hs.not_failed, hs.failed_iff⟩
  · rw [eq]
    exact h.fail _ _ _

/-- No action breaks the invariant. -/
theorem act (h : a.Sound) (settings : DecodeSettings) (shared : Option Store) {action : Action}
    (hc : action.Checked) : (a.act settings shared action).Sound := by
  cases action with
  | process segment => exact h.process hc settings shared
  | fail page segment error => exact h.fail page segment error
  | endPage number => exact h.endPage number

theorem actAll (h : a.Sound) (settings : DecodeSettings) (shared : Option Store)
    {actions : List Action} (hc : ∀ action ∈ actions, action.Checked) :
    (a.actAll settings shared actions).Sound := by
  induction actions generalizing a with
  | nil => exact h
  | cons action actions ih =>
    exact ih (h.act settings shared (hc action List.mem_cons_self))
      fun action ha => hc action (List.mem_cons_of_mem _ ha)

end Sound

/-! ## The balance of openings -/

section

variable (settings : DecodeSettings) (shared : Option Store) (p : Nat)

/-- Whether an action decodes a page information segment of page `p`. -/
def opens (a : Assembly) : Action → Bool
  | .process segment =>
    segment.header.kind = .pageInformation && segment.header.page = p && !a.passesOver p &&
      (a.decode settings shared segment).isOk
  | .fail _ _ _ | .endPage _ => false

/-- Whether an action lets page `p` fail while it is open. -/
def failsOpen (a : Assembly) (action : Action) : Bool :=
  decide (p ∈ a.openPages) && (a.act settings shared action).hasFailed p

/-- The number of page information segments of page `p` that are decoded. -/
def openings : Assembly → List Action → Nat
  | _, [] => 0
  | a, action :: rest =>
    (a.opens settings shared p action).toNat + openings (a.act settings shared action) rest

/-- Whether page `p` fails while it is open. -/
def failedOpen : Assembly → List Action → Bool
  | _, [] => false
  | a, action :: rest =>
    a.failsOpen settings shared p action || failedOpen (a.act settings shared action) rest

/-- How often page `p` was opened and not closed: 0 or 1. -/
def openCount (a : Assembly) : Nat := if p ∈ a.openPages then 1 else 0

end

section Balance

variable {p : Nat} {a b : Assembly}

theorem openCount_eq_one (h : p ∈ a.openPages) : a.openCount p = 1 := by
  simp [openCount, h]

theorem openCount_eq_zero (h : p ∉ a.openPages) : a.openCount p = 0 := by
  simp [openCount, h]

theorem openCount_congr (h : p ∈ b.openPages ↔ p ∈ a.openPages) : b.openCount p = a.openCount p := by
  by_cases hp : p ∈ a.openPages
  · rw [openCount_eq_one hp, openCount_eq_one (h.mpr hp)]
  · rw [openCount_eq_zero hp, openCount_eq_zero (fun hb => hp (h.mp hb))]

/-- Ending a page moves it from the open pages to the finished ones. -/
theorem balance_endPage (number : Nat) : ((a.endPage number).pagesOf p).size +
    (a.endPage number).openCount p = (a.pagesOf p).size + a.openCount p := by
  by_cases hp : p = number
  · subst hp
    rw [pagesOf_endPage, if_pos rfl, openCount_eq_zero (fun h => (mem_endPage.mp h).2 rfl)]
    by_cases hopen : p ∈ a.openPages
    · obtain ⟨page, hpage⟩ := Option.isSome_iff_exists.mp
        (Std.ExtTreeMap.mem_iff_isSome_getElem?.mp hopen)
      simp [openCount_eq_one hopen, hpage]
    · simp [openCount_eq_zero hopen, hopen]
  · rw [pagesOf_endPage, if_neg hp, Array.append_empty]
    rw [openCount_congr (mem_endPage.trans ⟨And.left, fun h => ⟨h, hp⟩⟩)]

/-- A failure closes the page that fails. -/
theorem balance_fail (h : a.Sound) (page : Nat) (segment : Option Nat) (error : DecodeError) :
    ((a.fail page segment error).pagesOf p).size +
      (decide (p ∈ a.openPages) && (a.fail page segment error).hasFailed p).toNat +
      (a.fail page segment error).openCount p = (a.pagesOf p).size + a.openCount p := by
  have hpages : (a.fail page segment error).pagesOf p = a.pagesOf p := by
    rw [pagesOf, fail_pages, pagesOf]
  have hfailed : (a.fail page segment error).hasFailed p = (a.hasFailed p || decide (page = p)) := by
    simp [hasFailed]
  rw [hpages, hfailed]
  by_cases hopen : p ∈ a.openPages
  · have h0 : p ≠ 0 := fun he => h.zero_not_open (he ▸ hopen)
    rw [h.hasFailed_eq_false hopen, openCount_eq_one hopen]
    by_cases hp : page = p
    · subst hp
      rw [openCount_eq_zero fun hb => h0 ((mem_fail.mp hb).2 rfl)]
      simp [hopen]
    · rw [openCount_eq_one (mem_fail.mpr ⟨hopen, fun he => absurd he.symm hp⟩)]
      simp [hp]
  · rw [openCount_eq_zero hopen, openCount_eq_zero fun hb => hopen (mem_fail.mp hb).1]
    simp [hopen]

theorem not_failsOpen (h : a.Sound) (hb : b.failures = a.failures) :
    (decide (p ∈ a.openPages) && b.hasFailed p) = false := by
  by_cases hopen : p ∈ a.openPages
  · rw [hasFailed, hb, ← hasFailed, h.hasFailed_eq_false hopen, Bool.and_false]
  · simp [hopen]

/-- A decoded segment opens its page if it is a page information segment. -/
theorem balance_decoded {segment : Segment} (h : a.Sound) (hd : Decoded segment a b) :
    (b.pagesOf p).size + (decide (p ∈ a.openPages) && b.hasFailed p).toNat + b.openCount p =
      (a.pagesOf p).size + a.openCount p +
        (segment.header.kind = .pageInformation && segment.header.page = p : Bool).toNat := by
  cases hd with
  | opened page kind new eq =>
    subst eq
    rw [not_failsOpen (b := a.setPage segment.header.page page) h rfl]
    by_cases hp : segment.header.page = p
    · subst hp
      rw [openCount_eq_zero new, openCount_eq_one (Numbered.mem_insert.mpr (.inl rfl))]
      simp [kind, pagesOf, setPage]
    · have hiff : p ∈ (a.setPage segment.header.page page).openPages ↔ p ∈ a.openPages :=
        Numbered.mem_insert.trans ⟨fun h => h.resolve_left (Ne.symm hp), .inr⟩
      rw [openCount_congr hiff]
      simp [hp, pagesOf, setPage]
  | ended kind old eq =>
    subst eq
    rw [not_failsOpen h (endPage_failures _ _)]
    simp [kind, balance_endPage]
  | kept kind eq =>
    rw [not_failsOpen h eq.failures, openCount_congr (eq.open_iff p), pagesOf, eq.pages]
    simp [kind, pagesOf]

variable (settings : DecodeSettings) (shared : Option Store)

/-- What an action adds to the openings of a page, it adds to the finished pages, to the failures
of the page while it is open, or to the open pages. -/
theorem balance_act (h : a.Sound) (action : Action) :
    ((a.act settings shared action).pagesOf p).size +
      (a.failsOpen settings shared p action).toNat + (a.act settings shared action).openCount p =
        (a.pagesOf p).size + a.openCount p + (a.opens settings shared p action).toNat := by
  unfold failsOpen
  cases action with
  | fail page segment error => exact balance_fail h page segment error
  | endPage number =>
    have hact : a.act settings shared (.endPage number) = a.endPage number := rfl
    rw [hact, not_failsOpen h (endPage_failures a number)]
    exact balance_endPage number
  | process segment =>
    have hproc := processed_process settings shared segment a
    have hact : a.act settings shared (.process segment) = a.process settings shared segment := rfl
    rw [hact]
    rcases hproc with ⟨passed, eq⟩ | ⟨passed, c, ok, eq⟩ | ⟨passed, e, err, eq⟩
    · have hopens : a.opens settings shared p (.process segment) = false := by
        by_cases hp : segment.header.page = p
        · simp [opens, ← hp, passed]
        · simp [opens, hp]
      rw [eq, hopens, not_failsOpen h rfl]
      simp
    · have hopens : a.opens settings shared p (.process segment) =
          (segment.header.kind = .pageInformation && segment.header.page = p : Bool) := by
        by_cases hp : segment.header.page = p
        · simp [opens, ← hp, passed, ok, Except.isOk, Except.toBool]
        · simp [opens, hp]
      have hb := balance_decoded (p := p) h (decoded_of_decode ok)
      rw [eq, hopens]
      exact hb
    · have hopens : a.opens settings shared p (.process segment) = false := by
        simp [opens, err, Except.isOk, Except.toBool]
      rw [eq, hopens]
      exact balance_fail h _ _ _

/-- An action only adds pages that are open before it, and never drops a failure. -/
theorem grows_act (action : Action) :
    (p ∉ a.openPages → (a.act settings shared action).pagesOf p = a.pagesOf p) ∧
      (a.hasFailed p = true → (a.act settings shared action).hasFailed p = true) := by
  have hend : ∀ number, (p ∉ a.openPages → (a.endPage number).pagesOf p = a.pagesOf p) ∧
      (a.hasFailed p = true → (a.endPage number).hasFailed p = true) := by
    intro number
    refine ⟨fun hp => ?_, fun hf => ?_⟩
    · simp [pagesOf_endPage, Std.ExtTreeMap.getElem?_eq_none hp]
    · rwa [hasFailed, endPage_failures]
  have hfail : ∀ page segment error,
      (p ∉ a.openPages → (a.fail page segment error).pagesOf p = a.pagesOf p) ∧
        (a.hasFailed p = true → (a.fail page segment error).hasFailed p = true) := by
    intro page segment error
    refine ⟨fun _ => ?_, fun hf => ?_⟩
    · rw [pagesOf, fail_pages, pagesOf]
    · rw [hasFailed] at hf
      simp [hasFailed, hf]
  cases action with
  | endPage number => exact hend number
  | fail page segment error => exact hfail page segment error
  | process segment =>
    have hact : a.act settings shared (.process segment) = a.process settings shared segment := rfl
    rw [hact]
    rcases processed_process settings shared segment a with ⟨-, eq⟩ | ⟨-, c, ok, eq⟩ | ⟨-, e, -, eq⟩
    · rw [eq]
      exact ⟨fun _ => rfl, id⟩
    · rw [eq]
      rcases decoded_of_decode ok with ⟨page, -, -, rfl⟩ | ⟨-, -, rfl⟩ | ⟨-, hlocal⟩
      · exact ⟨fun _ => rfl, id⟩
      · exact hend _
      · refine ⟨fun _ => ?_, fun hf => ?_⟩
        · simp only [pagesOf, noteDecoded, hlocal.pages]
        · rwa [hasFailed, noteDecoded, hlocal.failures]
    · rw [eq]
      exact hfail _ _ _

/-- Once a page has failed, no page with its number is added any more, and it isn't opened. -/
theorem frozen_actAll (h : a.Sound) (hf : a.hasFailed p = true)
    {actions : List Action} (hc : ∀ action ∈ actions, action.Checked) :
    (a.actAll settings shared actions).pagesOf p = a.pagesOf p ∧
      failedOpen settings shared p a actions = false := by
  induction actions generalizing a with
  | nil => exact ⟨rfl, rfl⟩
  | cons action actions ih =>
    have hnot : p ∉ a.openPages := fun hopen => by
      rw [h.hasFailed_eq_false hopen] at hf
      exact absurd hf (by decide)
    have hgrows := grows_act settings shared (a := a) (p := p) action
    obtain ⟨hpages, hopen⟩ := ih (h.act settings shared (hc action List.mem_cons_self))
      (hgrows.2 hf) fun action ha => hc action (List.mem_cons_of_mem _ ha)
    refine ⟨hpages.trans (hgrows.1 hnot), ?_⟩
    simp [failedOpen, failsOpen, hnot, hopen]

/-- What holds of single actions holds of a run of them. -/
theorem balance_actAll (h : a.Sound) {actions : List Action}
    (hc : ∀ action ∈ actions, action.Checked) :
    ((a.actAll settings shared actions).pagesOf p).size +
      (failedOpen settings shared p a actions).toNat +
      (a.actAll settings shared actions).openCount p =
        (a.pagesOf p).size + a.openCount p + openings settings shared p a actions := by
  induction actions generalizing a with
  | nil => simp [actAll, failedOpen, openings]
  | cons action actions ih =>
    have hs := h.act settings shared (hc action List.mem_cons_self)
    have hc' : ∀ action ∈ actions, action.Checked :=
      fun action ha => hc action (List.mem_cons_of_mem _ ha)
    have hstep := balance_act settings shared (p := p) h action
    have hrest := ih hs hc'
    have hsum : (failedOpen settings shared p a (action :: actions)).toNat =
        (a.failsOpen settings shared p action).toNat +
          (failedOpen settings shared p (a.act settings shared action) actions).toNat := by
      cases hfails : a.failsOpen settings shared p action with
      | false => simp [failedOpen, hfails]
      | true =>
        rw [(frozen_actAll settings shared hs (Bool.and_eq_true_iff.mp hfails).2 hc').2]
        simp [failedOpen, hfails]
    have hfinal : a.actAll settings shared (action :: actions) =
        (a.act settings shared action).actAll settings shared actions := rfl
    rw [hsum, hfinal, openings]
    omega

end Balance

/-! ## Runs -/

theorem openPages_endAll (a : Assembly) : a.endAll.openPages = ∅ := by
  rw [Std.ExtTreeMap.eq_empty_iff_forall_not_mem]
  intro p hp
  obtain ⟨hopen, hnot⟩ := mem_foldl_endPage.mp hp
  exact hnot (mem_openNumbers.mpr hopen)

theorem openPages_failAll {a : Assembly} (h : a.Sound) (page : Nat) (segment : Option Nat)
    (error : DecodeError) : (a.failAll page segment error).openPages = ∅ := by
  rw [Std.ExtTreeMap.eq_empty_iff_forall_not_mem]
  intro p hp
  obtain ⟨hopen, hzero⟩ := mem_foldl_fail.mp hp
  have hkeys := mem_openNumbers.mpr hopen
  have hnonempty : ¬a.openNumbers.isEmpty := fun hempty => by
    rw [List.isEmpty_iff.mp hempty] at hkeys
    cases hkeys
  rw [if_neg hnonempty] at hzero
  exact h.zero_not_open (hzero hkeys ▸ hopen)

/-- No page is left open. -/
theorem openPages_run (settings : DecodeSettings) (shared : Option Store) {a : Assembly}
    (h : a.Sound) {items : List StreamItem} (hc : ∀ item ∈ items, item.Checked) :
    (a.run settings shared items).openPages = ∅ := by
  induction items generalizing a with
  | nil => exact openPages_endAll a
  | cons item items ih =>
    have hc' : ∀ item ∈ items, item.Checked := fun item hi => hc item (List.mem_cons_of_mem _ hi)
    cases item with
    | segment segment =>
      unfold run
      dsimp only
      split
      · exact openPages_endAll _
      · exact ih (h.process (hc _ List.mem_cons_self) settings shared) hc'
    | invalid header error => exact ih (h.fail _ _ _) hc'
    | broken header error => exact openPages_failAll h _ _ _

/-- The state of a run after some of its actions. -/
def after (settings : DecodeSettings) (shared : Option Store) (items : List StreamItem) (n : Nat) :
    Assembly :=
  actAll settings shared {} ((actions settings shared {} items).take n)

/-- From the beginning of its pages to their ends, a run goes through states in which

* no open page has failed, and no open page has the number 0,
* the finished pages with a number that has failed stay the same,
* a page was opened as often as it was finished, plus once if it failed while it was open, plus
  once if it is open.

At the end no page is open. -/
theorem run_lifecycle (settings : DecodeSettings) (shared : Option Store) (items : List StreamItem)
    (h : ∀ item ∈ items, item.Checked) :
    let all := actions settings shared {} items
    let after := after settings shared items
    let final := run settings shared {} items
    (final = after all.length ∧ final.openPages = ∅) ∧
    (∀ n, 0 ∉ (after n).openPages ∧ ∀ p ∈ (after n).openPages, p ∉ (after n).failedPages) ∧
    (∀ p m n, m ≤ n → (∃ failure ∈ (after m).failures, failure.page = p) →
      (after n).pagesOf p = (after m).pagesOf p) ∧
    (∀ p n, ((after n).pagesOf p).size + (failedOpen settings shared p {} (all.take n)).toNat +
      (after n).openCount p = openings settings shared p {} (all.take n)) ∧
    ∀ p, (final.pagesOf p).size + (failedOpen settings shared p {} all).toNat =
      openings settings shared p {} all := by
  intro all after final
  have hc : ∀ action ∈ all, action.Checked := checked_actions settings shared {} h
  have htake : ∀ n, ∀ action ∈ all.take n, action.Checked :=
    fun n action ha => hc action (List.mem_of_mem_take ha)
  have hsound : ∀ n, (after n).Sound := fun n => sound_empty.actAll settings shared (htake n)
  have hfinal : final = after all.length := by
    simp only [final, after, Assembly.after, List.take_length, all]
    exact run_eq_actAll settings shared {} items
  have hempty : final.openPages = ∅ := openPages_run settings shared sound_empty h
  have hbalance : ∀ p n, ((after n).pagesOf p).size +
      (failedOpen settings shared p {} (all.take n)).toNat + (after n).openCount p =
        openings settings shared p {} (all.take n) := by
    intro p n
    have hzero : (pagesOf {} p).size + openCount p {} = 0 := by simp [pagesOf, openCount]
    have hb := balance_actAll settings shared (p := p) sound_empty (htake n)
    rwa [hzero, Nat.zero_add] at hb
  refine ⟨⟨hfinal, hempty⟩, fun n => ⟨(hsound n).zero_not_open, (hsound n).not_failed⟩, ?_,
    hbalance, fun p => ?_⟩
  · intro p m n hmn hfailed
    have hsplit : after n = actAll settings shared (after m) ((all.take n).drop m) := by
      have htake : all.take m = (all.take n).take m := by rw [List.take_take, Nat.min_eq_left hmn]
      simp only [after, Assembly.after, actAll, ← List.foldl_append]
      rw [htake, List.take_append_drop]
    rw [hsplit]
    refine (frozen_actAll settings shared (hsound m) (hasFailed_iff.mpr hfailed) fun action ha => ?_).1
    exact htake n action (List.mem_of_mem_drop ha)
  · have hb := hbalance p all.length
    rw [← hfinal, openCount_eq_zero (by simp [hempty]), List.take_length] at hb
    exact hb

/-- A page that begins and ends. Another one begins and fails when the stream breaks off. -/
theorem run_lifecycle_broken :
    let header (number : Nat) (kind : SegmentKind) (page : Nat) : SegmentHeader :=
      ⟨number, kind, false, [], [], page, some 0⟩
    let info : Bytes := #[0, 0, 0, 2, 0, 0, 0, 1, 0, 0, 0, 0, 0, 0, 0, 0, 67, 0, 0]
    let items : List StreamItem := [.segment ⟨header 0 .pageInformation 1, info⟩,
      .segment ⟨header 1 .pageInformation 2, info⟩, .segment ⟨header 2 .endOfPage 1, #[]⟩,
      .broken none .unexpectedEnd]
    let all := actions {} none {} items
    let final := run {} none {} items
    (∀ item ∈ items, item.Checked) ∧
      final.pages.map (·.number) = #[1] ∧ final.failures = #[⟨2, none, .unexpectedEnd⟩] ∧
      ([1, 2].map fun p => (openings {} none p {} all, failedOpen {} none p {} all)) =
        [(1, false), (1, true)] ∧
      final.openPages = ∅ ∧
      ∀ p, (final.pagesOf p).size + (failedOpen {} none p {} all).toNat = openings {} none p {} all := by
  intro header info items all final
  have h : ∀ item ∈ items, item.Checked := by
    simp [items, header, StreamItem.Checked, SegmentHeader.validate]
  obtain ⟨⟨-, hempty⟩, -, -, -, hbalance⟩ := run_lifecycle {} none items h
  exact ⟨h, by decide +kernel, by decide +kernel, by decide +kernel, hempty, hbalance⟩

end Assembly
end Bilevel

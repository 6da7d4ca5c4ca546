import Bilevel.Proofs.Document.Isolation
import Bilevel.Proofs.Document.Lifecycle

/-!
# The items that a run comes to

A run takes the items of a stream in order, each in the state in which the items before it have left
the assembly. It ends early at the end of the file, and at an item that breaks off the stream.

## Main definitions

* `Assembly.visits` — the items that a run comes to, each with the state in which it is found.
* `Assembly.fault?` — what is wrong with an item, found in a given state.

## Main results

* `Assembly.forall_visits` — what each item preserves holds whenever a run comes to an item.
* `Assembly.failuresOf_take` — how the failures of a page change with an item.
-/

namespace Bilevel

namespace StreamItem

/-- The header of an item, if it could be read. -/
def header? : StreamItem → Option SegmentHeader
  | .segment s => some s.header
  | .invalid header _ => some header
  | .broken header _ => header

/-- The number of the segment that an item is, if its header could be read. -/
def number? (item : StreamItem) : Option Nat := item.header?.map (·.number)

/-- Whether the stream goes on behind an item. -/
def Whole (item : StreamItem) : Prop := ∀ header error, item ≠ .broken header error

end StreamItem

namespace Assembly

/-- An item that a run comes to, and the state in which it is found. -/
structure Visit where
  state : Assembly
  item : StreamItem

/-- Whether a run goes on after an item. -/
def goesOn (a : Assembly) : StreamItem → Bool
  | .segment s => !a.ends s
  | .invalid _ _ => true
  | .broken _ _ => false

section

variable (settings : DecodeSettings) (shared : Option Store)

/-- The items that a run comes to. -/
def visits : Assembly → List StreamItem → List Visit
  | _, [] => []
  | a, item :: rest =>
    ⟨a, item⟩ :: if a.goesOn item then visits (a.take settings shared item) rest else []

/-- What is wrong with an item: a segment can't be decoded, or there is no segment. -/
def fault? (a : Assembly) : StreamItem → Option DecodeError
  | .segment s =>
    match a.decode settings shared s with
    | .ok _ => none
    | .error e => some e
  | .invalid _ error | .broken _ error => some error

/-- The pages that something wrong with an item is about: its own page, or all that are open when
the stream breaks off. -/
def concerned (a : Assembly) (item : StreamItem) : List Nat :=
  match item with
  | .broken _ _ => if a.openNumbers.isEmpty then [item.page] else a.openNumbers
  | _ => [item.page]

/-- The failure of page `p` that something wrong with an item is. -/
def failure? (a : Assembly) (p : Nat) (item : StreamItem) : Option PageFailure :=
  if p ∈ a.concerned item then (a.fault? settings shared item).map (⟨p, item.number?, ·⟩) else none

/-- The failure of page `p` that an item adds: none if the item is passed over. -/
def added? (a : Assembly) (p : Nat) : StreamItem → Option PageFailure
  | .segment s =>
    if a.passesOver s.header.page then none else a.failure? settings shared p (.segment s)
  | item => a.failure? settings shared p item

/-- The failures of page `p` that items add. -/
def recorded (p : Nat) (visits : List Visit) : List PageFailure :=
  visits.filterMap fun v => v.state.added? settings shared p v.item

end

variable {settings : DecodeSettings} {shared : Option Store} {a : Assembly}

/-- A run comes to the first items of the stream. -/
theorem map_item_visits (settings : DecodeSettings) (shared : Option Store) (a : Assembly)
    (items : List StreamItem) : (visits settings shared a items).map (·.item) <+: items := by
  induction items generalizing a with
  | nil => exact List.prefix_rfl
  | cons item items ih =>
    rw [visits, List.map_cons, List.prefix_cons_inj]
    split
    · exact ih _
    · exact List.nil_prefix

theorem mem_of_mem_visits {items : List StreamItem} {v : Visit}
    (h : v ∈ visits settings shared a items) : v.item ∈ items :=
  (map_item_visits settings shared a items).subset (List.mem_map_of_mem h)

/-- What each item preserves holds whenever a run comes to an item. -/
theorem forall_visits {P : Assembly → Prop} {items : List StreamItem} (ha : P a)
    (hstep : ∀ v ∈ visits settings shared a items, v.state.goesOn v.item = true → P v.state →
      P (v.state.take settings shared v.item)) :
    ∀ v ∈ visits settings shared a items, P v.state := by
  induction items generalizing a with
  | nil =>
    intro v hv
    cases hv
  | cons item items ih =>
    cases hon : a.goesOn item with
    | false => simpa [visits, hon] using ha
    | true =>
      rw [visits, hon, if_pos rfl] at hstep ⊢
      obtain ⟨hfirst, hrest⟩ := List.forall_mem_cons.mp hstep
      exact List.forall_mem_cons.mpr ⟨ha, ih (hfirst hon ha) hrest⟩

theorem whole_of_goesOn {item : StreamItem} (h : a.goesOn item = true) : item.Whole := by
  rintro header error rfl
  cases h

/-- A run that goes on after an item. -/
theorem run_of_goesOn {item : StreamItem} {rest : List StreamItem} (h : a.goesOn item = true) :
    run settings shared a (item :: rest) = run settings shared (a.take settings shared item) rest := by
  cases item with
  | segment s =>
    have hends : a.ends s = false := by simpa [goesOn] using h
    rw [run, hends]
    rfl
  | invalid header error => rfl
  | broken header error => cases h

theorem Sound.take (h : a.Sound) {item : StreamItem} (hc : item.Checked)
    (settings : DecodeSettings) (shared : Option Store) : (a.take settings shared item).Sound := by
  cases item with
  | segment s => exact h.process hc settings shared
  | invalid header error => exact h.fail _ _ _
  | broken header error => exact h

/-! ## The failures of a page -/

section Failures

variable {p : Nat} {item : StreamItem}

@[simp] theorem failure?_segment (s : Segment) : a.failure? settings shared p (.segment s) =
    if s.header.page = p then
      (a.fault? settings shared (.segment s)).map (⟨p, some s.header.number, ·⟩)
    else none := by
  simp [failure?, concerned, StreamItem.page, StreamItem.number?, StreamItem.header?, eq_comm]

@[simp] theorem failure?_invalid (header : SegmentHeader) (error : DecodeError) :
    a.failure? settings shared p (.invalid header error) =
      if header.page = p then some ⟨p, some header.number, error⟩ else none := by
  simp [failure?, concerned, fault?, StreamItem.page, StreamItem.number?, StreamItem.header?,
    eq_comm]

theorem failuresOf_fail (a : Assembly) (page : Nat) (segment : Option Nat) (error : DecodeError) :
    (a.fail page segment error).failuresOf p =
      a.failuresOf p ++ (if page = p then some ⟨p, segment, error⟩ else none).toArray := by
  by_cases hp : page = p
  · subst hp
    simp [failuresOf]
  · simp [failuresOf, hp]

theorem hasFailed_eq (a : Assembly) (p : Nat) : a.hasFailed p = !(a.failuresOf p).isEmpty := by
  rw [Bool.eq_iff_iff, hasFailed_iff, Bool.not_eq_true', ← Bool.not_eq_true, Array.isEmpty_iff,
    failuresOf, Array.filter_eq_empty_iff]
  simp

theorem failures_of_decoded {s : Segment} {b : Assembly} (h : Decoded s a b) :
    b.failures = a.failures := by
  cases h with
  | opened page kind new eq => rw [eq, setPage]
  | ended kind old eq => rw [eq, endPage_failures]
  | kept kind eq => exact eq.failures

theorem failuresOf_process (s : Segment) : (a.process settings shared s).failuresOf p =
    a.failuresOf p ++ (a.added? settings shared p (.segment s)).toArray := by
  rcases processed_process settings shared s a with ⟨passed, eq⟩ | ⟨passed, b, ok, eq⟩ |
    ⟨passed, error, err, eq⟩
  · have hadded : a.added? settings shared p (.segment s) = none := if_pos passed
    simp [eq, hadded]
  · have hadded : a.added? settings shared p (.segment s) = none := by
      simp [added?, fault?, passed, ok]
    have hkept : (b.noteDecoded s.header.number).failuresOf p = a.failuresOf p :=
      congrArg (·.filter (·.page = p)) (failures_of_decoded (decoded_of_decode ok))
    simp [eq, hadded, hkept]
  · have hadded : a.added? settings shared p (.segment s) =
        if s.header.page = p then some ⟨p, some s.header.number, error⟩ else none := by
      simp [added?, fault?, passed, err]
    rw [eq, failuresOf_fail, hadded]

/-- An item adds its failure to those of the page. -/
theorem failuresOf_take (hw : item.Whole) : (a.take settings shared item).failuresOf p =
    a.failuresOf p ++ (a.added? settings shared p item).toArray := by
  cases item with
  | segment s => exact failuresOf_process s
  | invalid header error => simp [take, added?, failuresOf_fail]
  | broken header error => exact absurd rfl (hw header error)

theorem hasFailed_take (hw : item.Whole) : (a.take settings shared item).hasFailed p =
    (a.hasFailed p || (a.added? settings shared p item).isSome) := by
  rw [hasFailed_eq, hasFailed_eq, failuresOf_take hw]
  cases a.added? settings shared p item <;> simp

/-- Among several pages, each is let fail once. -/
theorem failuresOf_foldl_fail {numbers : List Nat} (h : numbers.Nodup) (segment : Option Nat)
    (error : DecodeError) :
    (numbers.foldl (fun a number => a.fail number segment error) a).failuresOf p =
      a.failuresOf p ++ (if p ∈ numbers then some ⟨p, segment, error⟩ else none).toArray := by
  induction numbers generalizing a with
  | nil => simp
  | cons number numbers ih =>
    obtain ⟨hnot, hnodup⟩ := List.nodup_cons.mp h
    rw [List.foldl_cons, ih hnodup, failuresOf_fail]
    by_cases hp : number = p
    · subst hp
      simp [hnot]
    · simp [hp, Ne.symm hp]

theorem failuresOf_failAll (header : Option SegmentHeader) (error : DecodeError) :
    (a.failAll ((header.map (·.page)).getD 0) (header.map (·.number)) error).failuresOf p =
      a.failuresOf p ++ (a.added? settings shared p (.broken header error)).toArray := by
  have hnodup : (a.concerned (.broken header error)).Nodup := by
    unfold concerned
    dsimp only
    split
    · exact List.pairwise_singleton _ _
    · exact a.nodup_openNumbers
  exact failuresOf_foldl_fail hnodup _ error

theorem toArray_recorded (v : Visit) (later : List Visit) :
    (recorded settings shared p (v :: later)).toArray =
      (v.state.added? settings shared p v.item).toArray ++
        (recorded settings shared p later).toArray := by
  unfold recorded
  cases hadded : v.state.added? settings shared p v.item <;> simp [hadded]

/-- The failures of a page are those that the items add to which the run comes. -/
theorem failuresOf_run (items : List StreamItem) : (run settings shared a items).failuresOf p =
    a.failuresOf p ++ (recorded settings shared p (visits settings shared a items)).toArray := by
  induction items generalizing a with
  | nil => simp [run, visits, recorded, failuresOf_endAll]
  | cons item items ih =>
    rw [visits, toArray_recorded, ← Array.append_assoc]
    cases hon : a.goesOn item with
    | true => rw [run_of_goesOn hon, ih, failuresOf_take (whole_of_goesOn hon), if_pos rfl]
    | false =>
      have hnothing : (recorded settings shared p []).toArray = #[] := rfl
      rw [if_neg Bool.false_ne_true, hnothing, Array.append_empty]
      cases item with
      | segment s =>
        have hends : a.ends s = true := by simpa [goesOn] using hon
        rw [run, if_pos hends, failuresOf_endAll, failuresOf_process]
      | invalid header error => cases hon
      | broken header error => rw [run, failuresOf_failAll]

end Failures

end Assembly
end Bilevel

import Bilevel.Document.Decode
import Bilevel.Proofs.Document.Visits

/-!
# References to segments that weren't decoded

A segment that fails, or that is passed over, leaves nothing behind under its number. Later segments
that refer to it look on in the shared segments. Unless they find something of use under this number
there, they fail too, and so do those that refer to them.

## Main definitions

* `SegmentHeader.Needs` — the references without which a segment can't be decoded.
* `SegmentKind.canUse` — what segments of a kind can refer to.
* `Assembly.decodes` — whether an item is a segment that is decoded.
* `Assembly.Dangling` — the errors of a segment with a reference that doesn't lead anywhere.

## Main results

* `Assembly.sameAt_visits` — nothing is stored under a number of which no segment is decoded.
* `Assembly.take_dangling` — what comes of references to such a number.
-/

namespace Bilevel

/-! ## What segments need -/

/-- A segment has to find the segment with the number `n` to be decoded. A refinement region only
looks at its first reference. -/
def SegmentHeader.Needs (h : SegmentHeader) (n : Nat) : Prop :=
  match h.kind with
  | .symbolDictionary | .region .text _ => n ∈ h.referred
  | .region .refinement _ => h.referred.head? = some n
  | _ => False

/-- Whether segments of a kind can refer to what another one left. -/
def SegmentKind.canUse : SegmentKind → Stored → Bool
  | .symbolDictionary, .dictionary _ | .symbolDictionary, .table _ => true
  | .region .text _, .dictionary _ | .region .text _, .table _ => true
  | .region .refinement _, .region _ => true
  | _, _ => false

theorem SegmentKind.canUse_text (use : RegionUse) (stored : Stored) :
    canUse (.region .text use) stored = canUse .symbolDictionary stored := by
  cases stored <;> rfl

/-- An item is a segment with a valid header, or says what is wrong with the header. -/
def StreamItem.Validated : StreamItem → Prop
  | .segment s => s.header.validate = .ok ()
  | .invalid header error => header.validate = .error error
  | .broken _ _ => True

namespace Stream

theorem validated_itemOf (header : SegmentHeader) (data : Bytes) :
    (itemOf header data).Validated := by
  unfold itemOf
  split
  · next h => exact h
  · next h => exact h

theorem validated_embedded (data : Bytes) : ∀ item ∈ embedded data, item.Validated :=
  forall_interleaved validated_itemOf (fun _ _ => trivial) _ _

theorem validated_file {data : Bytes} {items : List StreamItem} (h : file data = .ok items) :
    ∀ item ∈ items, item.Validated :=
  forall_file validated_itemOf (fun _ _ => trivial) h

end Stream

theorem SegmentHeader.validate_eq_error {h : SegmentHeader} {e : DecodeError}
    (he : h.validate = .error e) :
    (∃ cause, e = .reference cause) ∨ e = .malformed .invalidPageAssociation ∧ h.page = 0 := by
  unfold validate at he
  split at he
  · exact .inl ⟨_, (Except.error.inj he).symm⟩
  · split at he
    · next hpage => exact .inr ⟨(Except.error.inj he).symm, hpage.1⟩
    · cases he

/-! ## Looking for segments -/

section Lookup

variable {n : Nat} {stores : List Store} {e : DecodeError}

theorem Store.lookup_eq_error (h : lookup n stores = .error e) : ∃ cause, e = .reference cause := by
  fun_induction lookup n stores with
  | case1 => exact ⟨_, (Except.error.inj h).symm⟩
  | case2 store rest stored found => cases h
  | case3 store rest nothing decoded => exact ⟨_, (Except.error.inj h).symm⟩
  | case4 store rest nothing never ih => exact ih h

/-- A store with nothing under a number doesn't hide what others have there. -/
theorem Store.lookup_of_sameAt {store : Store} (h : Assembly.SameAt n store {}) :
    lookup n (store :: stores) = lookup n stores := by
  have hnothing : store.get? n = none := h.get?_eq.trans rfl
  have hnever : n ∉ store.decoded := fun hn => absurd (h.decoded.mp hn) (by simp)
  simp only [lookup, hnothing, if_neg hnever]

theorem SymbolInputs.add_eq_error {inputs : SymbolInputs} {stored : Stored}
    (h : inputs.add n stored = .error e) : ∃ cause, e = .reference cause := by
  cases stored with
  | dictionary dictionary => cases h
  | table table => cases h
  | region region => exact ⟨_, (Except.error.inj h).symm⟩

/-- Symbols can't be gathered if one of the segments isn't there, or is of no use. -/
theorem SymbolInputs.gather_eq_error {referred : List Nat} (hn : n ∈ referred)
    (h : ∀ stored, Store.lookup n stores = .ok stored →
      SegmentKind.canUse .symbolDictionary stored = false) :
    ∃ cause, gather stores referred = .error (.reference cause) := by
  unfold gather
  generalize ({} : SymbolInputs) = inputs
  induction referred generalizing inputs with
  | nil => cases hn
  | cons number referred ih =>
    rw [List.foldlM_cons]
    cases hfirst : (do inputs.add number (← Store.lookup number stores)) with
    | error e =>
      rcases bind_eq_error.mp hfirst with hlookup | ⟨stored, -, hadd⟩
      · obtain ⟨cause, rfl⟩ := Store.lookup_eq_error hlookup
        exact ⟨cause, rfl⟩
      · obtain ⟨cause, rfl⟩ := add_eq_error hadd
        exact ⟨cause, rfl⟩
    | ok next =>
      rcases List.mem_cons.mp hn with rfl | hn
      · obtain ⟨stored, hlookup, hadd⟩ := bind_eq_ok.mp hfirst
        have hnot := h stored hlookup
        cases stored with
        | dictionary dictionary => cases hnot
        | table table => cases hnot
        | region region => cases hadd
      · exact ih hn next

end Lookup

namespace Assembly

/-! ## What a segment leaves -/

/-- Whether an item is a segment that is decoded: it isn't passed over, and nothing is wrong with
it. -/
def decodes (settings : DecodeSettings) (shared : Option Store) (a : Assembly) : StreamItem → Bool
  | .segment s => !a.passesOver s.header.page && (a.decode settings shared s).isOk
  | .invalid _ _ | .broken _ _ => false

variable {settings : DecodeSettings} {shared : Option Store} {a b : Assembly} {n : Nat}
  {item : StreamItem} {s : Segment}

theorem sameAt_of_decoded (h : Decoded s a b) (hn : n ≠ s.header.number) :
    SameAt n b.store a.store := by
  cases h with
  | opened page kind new eq => exact eq ▸ .refl _ _
  | ended kind old eq =>
    rw [eq, endPage_store]
    exact .refl _ _
  | kept kind eq => exact eq.store n hn

/-- An item leaves something under its own number only, and only if it is decoded. -/
theorem sameAt_take (h : item.number? = some n → a.decodes settings shared item = false) :
    SameAt n (a.take settings shared item).store a.store := by
  cases item with
  | invalid header error =>
    rw [take, fail_store]
    exact .refl _ _
  | broken header error => exact .refl _ _
  | segment s =>
    rw [take]
    rcases processed_process settings shared s a with ⟨-, eq⟩ | ⟨passed, c, ok, eq⟩ | ⟨-, e, -, eq⟩
    · rw [eq]
      exact .refl _ _
    · have hn : n ≠ s.header.number := by
        rintro rfl
        have hnot := h rfl
        simp [decodes, passed, ok, Except.isOk, Except.toBool] at hnot
      rw [eq]
      exact (sameAt_noteDecoded_of_ne hn).trans (sameAt_of_decoded (decoded_of_decode ok) hn)
    · rw [eq, fail_store]
      exact .refl _ _

/-- Nothing is stored under a number of which no segment is decoded. -/
theorem sameAt_visits {items : List StreamItem} {before later : List Visit} {v : Visit}
    (hvisits : visits settings shared a items = before ++ v :: later)
    (h : ∀ u ∈ before, u.item.number? = some n → u.state.decodes settings shared u.item = false) :
    SameAt n v.state.store a.store := by
  -- Each item that comes before keeps what is stored under the number.
  induction before generalizing a items with
  | nil =>
    cases items with
    | nil => cases hvisits
    | cons item items =>
      obtain ⟨rfl, -⟩ := List.cons.inj hvisits
      exact .refl _ _
  | cons u before ih =>
    obtain ⟨hfirst, hbefore⟩ := List.forall_mem_cons.mp h
    cases items with
    | nil => cases hvisits
    | cons item items =>
      rw [visits, List.cons_append] at hvisits
      obtain ⟨rfl, hrest⟩ := List.cons.inj hvisits
      split at hrest
      · exact (ih hrest hbefore).trans (sameAt_take hfirst)
      · simp at hrest

/-! ## References that don't lead anywhere -/

/-- The errors of an item that is found in the state `a` and has the header `h`, if it is a segment
with a reference that doesn't lead anywhere. -/
inductive Dangling (settings : DecodeSettings) (a : Assembly) (item : StreamItem)
    (h : SegmentHeader) : DecodeError → Prop
  | reference (cause : ReferenceError) : Dangling settings a item h (.reference cause)
  | association (page : h.page = 0) :
    Dangling settings a item h (.malformed .invalidPageAssociation)
  | page (closed : h.page ∉ a.openPages) :
    Dangling settings a item h (.malformed .missingPageInformation)
  /-- The region information of a refinement region is read before its reference is looked up. -/
  | info {s : Segment} {use : RegionUse} {error : DecodeError} (segment : item = .segment s)
    (kind : h.kind = .region .refinement use)
    (read : (RegionInfo.read settings).run (Reader.ofBytes s.data) = .error error) :
    Dangling settings a item h error

theorem page_eq_error {number : Nat} {e : DecodeError} (h : a.page number = .error e) :
    e = .malformed .missingPageInformation ∧ number ∉ a.openPages := by
  grind [page]

/-- Before a region is decoded, its page has to be open. -/
theorem page_dangling {x : Except DecodeError Assembly}
    (h : ∃ e, x = .error e ∧ Dangling settings a item s.header e) :
    ∃ e, (a.page s.header.page >>= fun _ => x) = .error e ∧ Dangling settings a item s.header e := by
  cases hpage : a.page s.header.page with
  | ok page => exact h
  | error e =>
    obtain ⟨rfl, hclosed⟩ := page_eq_error hpage
    exact ⟨_, rfl, .page hclosed⟩

/-- A refinement region whose first reference isn't a region has nothing to refine. -/
theorem reference_dangling (settings : DecodeSettings) {use : RegionUse}
    (hkind : s.header.kind = .region .refinement use) (hfirst : s.header.referred.head? = some n)
    (huseless : ∀ region, Store.lookup n (a.stores shared) ≠ .ok (.region region)) :
    ∃ e, a.reference settings shared s = .error e ∧
      Dangling settings a (.segment s) s.header e := by
  obtain ⟨rest, hreferred⟩ := List.head?_eq_some_iff.mp hfirst
  unfold reference
  cases hread : (RegionInfo.read settings).run (Reader.ofBytes s.data) with
  | error e => exact ⟨e, rfl, .info rfl hkind hread⟩
  | ok result =>
    obtain ⟨info, _⟩ := result
    rw [hreferred]
    change ∃ e, (Store.lookup n (a.stores shared) >>= _) = .error e ∧ _
    cases hlookup : Store.lookup n (a.stores shared) with
    | error e =>
      obtain ⟨cause, rfl⟩ := Store.lookup_eq_error hlookup
      exact ⟨_, rfl, .reference cause⟩
    | ok stored =>
      cases stored with
      | region region => exact absurd hlookup (huseless region)
      | dictionary dictionary => exact ⟨_, rfl, .reference _⟩
      | table table => exact ⟨_, rfl, .reference _⟩

/-- A segment can't be decoded if what it needs isn't there, or is of no use to it. -/
theorem decode_dangling (settings : DecodeSettings) (hneeds : s.header.Needs n)
    (huseless : ∀ stored, Store.lookup n (a.stores shared) = .ok stored →
      s.header.kind.canUse stored = false) :
    ∃ e, a.decode settings shared s = .error e ∧
      Dangling settings a (.segment s) s.header e := by
  unfold decode
  unfold SegmentHeader.Needs at hneeds
  split at hneeds
  · next hkind =>
    rw [hkind] at huseless ⊢
    obtain ⟨cause, hgather⟩ := SymbolInputs.gather_eq_error hneeds huseless
    exact ⟨_, bind_eq_error.mpr (.inl hgather), .reference cause⟩
  · next use hkind =>
    simp only [hkind, SegmentKind.canUse_text] at huseless ⊢
    obtain ⟨cause, hgather⟩ := SymbolInputs.gather_eq_error hneeds huseless
    exact page_dangling ⟨_, bind_eq_error.mpr (.inl hgather), .reference cause⟩
  · next use hkind =>
    rw [hkind] at huseless ⊢
    have hregion : ∀ region, Store.lookup n (a.stores shared) ≠ .ok (.region region) :=
      fun region hlookup => nomatch huseless _ hlookup
    obtain ⟨e, hreference, hdangling⟩ := reference_dangling settings hkind hneeds hregion
    exact page_dangling ⟨e, bind_eq_error.mpr (.inl hreference), hdangling⟩
  · cases hneeds

/-- Suppose that no segment with the number `n` is decoded before an item. If the item is a segment
that needs one, it looks for it in the shared segments alone. If there is nothing of use to it, it
isn't decoded: it fails, unless it is passed over, with the error of a reference or with one that is
found before. -/
theorem take_dangling (settings : DecodeSettings) (shared : Option Store)
    {items : List StreamItem} (hvalid : ∀ item ∈ items, item.Validated) {n : Nat}
    {before later : List Visit} {v : Visit} {h : SegmentHeader}
    (hvisits : visits settings shared {} items = before ++ v :: later)
    (hnone : ∀ u ∈ before, u.item.number? = some n →
      u.state.decodes settings shared u.item = false)
    (hheader : v.item.header? = some h) (hwhole : v.item.Whole) (hneeds : h.Needs n) :
    Store.lookup n (v.state.stores shared) = Store.lookup n shared.toList ∧
    ((∀ stored, Store.lookup n shared.toList = .ok stored → h.kind.canUse stored = false) →
      v.state.decodes settings shared v.item = false ∧
      ∃ e, v.state.fault? settings shared v.item = some e ∧
        Dangling settings v.state v.item h e ∧
        (v.state.take settings shared v.item = v.state.fail h.page (some h.number) e ∨
          v.state.passesOver h.page = true ∧ v.state.take settings shared v.item = v.state)) := by
  obtain ⟨state, item⟩ := v
  have hlookup : Store.lookup n (state.stores shared) = Store.lookup n shared.toList :=
    Store.lookup_of_sameAt (sameAt_visits hvisits hnone)
  refine ⟨hlookup, fun huseless => ?_⟩
  cases item with
  | broken header error => exact absurd rfl (hwhole header error)
  | invalid header error =>
    obtain rfl := Option.some.inj hheader
    have hmem : .invalid header error ∈ items := by
      have hvisit : ⟨state, .invalid header error⟩ ∈ visits settings shared {} items := by
        simp [hvisits]
      exact mem_of_mem_visits hvisit
    refine ⟨rfl, error, rfl, ?_, .inl rfl⟩
    rcases SegmentHeader.validate_eq_error (hvalid _ hmem) with ⟨cause, rfl⟩ | ⟨rfl, hpage⟩
    · exact .reference cause
    · exact .association hpage
  | segment s =>
    obtain rfl := Option.some.inj hheader
    obtain ⟨e, he, hdangling⟩ := decode_dangling settings hneeds (hlookup.symm ▸ huseless)
    refine ⟨by simp [decodes, he, Except.isOk, Except.toBool], e, by simp [fault?, he],
      hdangling, ?_⟩
    rcases processed_process settings shared s state with ⟨passed, eq⟩ | ⟨-, c, ok, -⟩ |
      ⟨-, error, err, eq⟩
    · exact .inr ⟨passed, eq⟩
    · cases he.symm.trans ok
    · obtain rfl := Except.error.inj (he.symm.trans err)
      exact .inl eq

/-- Two symbol dictionaries. The first has no data, the second refers to it. -/
theorem take_dangling_withoutData :
    let first : SegmentHeader := ⟨0, .symbolDictionary, false, [], [], 0, some 0⟩
    let second : SegmentHeader := ⟨1, .symbolDictionary, false, [], [0], 0, some 0⟩
    let items : List StreamItem := [.segment ⟨first, #[]⟩, .segment ⟨second, #[]⟩]
    let start : Visit := ⟨{}, .segment ⟨first, #[]⟩⟩
    let v : Visit := ⟨start.state.take {} none start.item, .segment ⟨second, #[]⟩⟩
    ((∀ item ∈ items, item.Validated) ∧ visits {} none {} items = [start] ++ v :: [] ∧
      (∀ u ∈ [start], u.item.number? = some 0 → u.state.decodes {} none u.item = false) ∧
      v.item.header? = some second ∧ v.item.Whole ∧ second.Needs 0) ∧
    v.state.decodes {} none v.item = false := by
  intro first second items start v
  have hvalid : ∀ item ∈ items, item.Validated := by
    simp [items, first, second, StreamItem.Validated, SegmentHeader.validate,
      SegmentKind.pageBound]
  have hvisits : visits {} none {} items = [start] ++ v :: [] := rfl
  have hnone : ∀ u ∈ [start], u.item.number? = some 0 → u.state.decodes {} none u.item = false := by
    intro u hu _
    obtain rfl := List.mem_singleton.mp hu
    decide +kernel
  have hwhole : v.item.Whole := by
    intro header error hbroken
    cases hbroken
  have hneeds : second.Needs 0 := List.mem_singleton.mpr rfl
  have hnothing : ∀ stored, Store.lookup 0 (none : Option Store).toList = .ok stored →
      second.kind.canUse stored = false := by
    intro stored hfound
    cases hfound
  have hdangling := take_dangling {} none hvalid hvisits hnone rfl hwhole hneeds
  exact ⟨⟨hvalid, hvisits, hnone, rfl, hwhole, hneeds⟩, (hdangling.2 hnothing).1⟩

/-- The shared segment 0 is a symbol dictionary. The segment 0 of the stream isn't decoded, yet a
text region that refers to it is. -/
theorem decodes_shared :
    let globals := Globals.ofBytes {} #[0, 0, 0, 0, 0, 1, 0, 0, 0, 0, 15, 0, 1, 0, 0, 0, 1, 0, 0, 0,
      1, 95, 128, 128, 0, 64]
    let items := Stream.embedded #[0, 0, 0, 0, 0, 0, 0, 0, 0, 0, 0, 0, 0, 0, 1, 48, 0, 1, 0, 0, 0,
      19, 0, 0, 0, 4, 0, 0, 0, 2, 0, 0, 0, 0, 0, 0, 0, 0, 67, 0, 0, 0, 0, 0, 2, 7, 34, 0, 1, 0, 0,
      0, 27, 0, 0, 0, 4, 0, 0, 0, 2, 0, 0, 0, 0, 0, 0, 0, 0, 0, 0, 16, 0, 0, 0, 1, 165, 175, 255,
      172]
    let shared := some globals.store
    let visits := visits {} shared {} items
    visits.map (fun v => v.item.header?.map fun h => (h.number, h.kind, h.referred)) =
      [some (0, .symbolDictionary, []), some (1, .pageInformation, []),
        some (2, .region .text .immediateLossless, [0])] ∧
    visits.map (fun v => v.state.decodes {} shared v.item) = [false, true, true] := by
  decide +kernel

end Assembly
end Bilevel

import Bilevel.Proofs.Steps
import Bilevel.Segment.Stream

/-!
# The items of streams and files

What holds of all that a header and its data can make holds of all items. In particular, the headers
of all segments that are given out are valid.

## Main definitions

* `StreamItem.Checked` — an item isn't a segment whose header contradicts itself.

## Main results

* `SegmentHeader.validate_eq_ok_iff` — when a header is valid.
* `Stream.forall_interleaved`, `Stream.forall_file` — what holds of all items.
* `Stream.checked_embedded`, `Stream.checked_file` — the segments of streams and files are valid.
-/

namespace Bilevel

/-- A header is valid if it refers to earlier segments only, and gives a page if one is needed. -/
theorem SegmentHeader.validate_eq_ok_iff {h : SegmentHeader} : h.validate = .ok () ↔
    (∀ n ∈ h.referred, n < h.number) ∧ (h.kind.pageBound = true → h.page ≠ 0) := by
  have hfind : h.referred.find? (h.number ≤ ·) = none ↔ ∀ n ∈ h.referred, n < h.number := by
    simp [List.find?_eq_none]
  unfold validate
  split
  · next referred hreferred =>
    rw [← hfind, hreferred]
    simp
  · next hnone =>
    rw [and_iff_right (hfind.mp hnone)]
    split
    · next hzero => simp [hzero]
    · next hzero => exact iff_of_true rfl fun hbound hpage => hzero ⟨hpage, hbound⟩

/-- The header of a segment doesn't contradict itself. -/
def StreamItem.Checked : StreamItem → Prop
  | .segment s => s.header.validate = .ok ()
  | .invalid _ _ | .broken _ _ => True

namespace Stream

section

variable {P : StreamItem → Prop} (hitem : ∀ header data, P (itemOf header data))
  (hbroken : ∀ header error, P (.broken header error))

include hitem hbroken

/-- What holds of whatever a header and its data make, and of where a stream breaks off, holds of
all items of a stream. -/
theorem forall_interleaved (limit : Nat) (r : Reader) : ∀ item ∈ interleaved limit r, P item := by
  induction limit generalizing r with
  | zero => simp [interleaved]
  | succ limit ih =>
    unfold interleaved
    split
    · simp
    · split
      · simp [hbroken]
      · split
        · simp [hbroken]
        · intro item hmem
          rcases List.mem_cons.mp hmem with rfl | hmem
          · exact hitem _ _
          · split at hmem
            · simp at hmem
            · exact ih _ item hmem

theorem forall_deferred (headers : List SegmentHeader) (r : Reader) :
    ∀ item ∈ deferred headers r, P item := by
  induction headers generalizing r with
  | nil => simp [deferred]
  | cons header headers ih =>
    unfold deferred
    split
    · simp [hbroken]
    · intro item hmem
      rcases List.mem_cons.mp hmem with rfl | hmem
      · exact hitem _ _
      · split at hmem
        · simp at hmem
        · exact ih _ item hmem

theorem forall_file {data : Bytes} {items : List StreamItem} (h : file data = .ok items) :
    ∀ item ∈ items, P item := by
  unfold file at h
  obtain ⟨⟨header, r⟩, -, h⟩ := bind_eq_ok.mp h
  dsimp only at h
  split at h
  · rw [pure_eq_ok] at h
    exact h ▸ forall_interleaved hitem hbroken _ _
  · rw [pure_eq_ok] at h
    rw [← h]
    unfold headersFirst
    split
    · simp [hbroken]
    · exact forall_deferred hitem hbroken _ _

end

theorem checked_itemOf (header : SegmentHeader) (data : Bytes) :
    (itemOf header data).Checked := by
  unfold itemOf
  split
  · next h => exact h
  · trivial

theorem checked_embedded (data : Bytes) : ∀ item ∈ embedded data, item.Checked :=
  forall_interleaved checked_itemOf (fun _ _ => trivial) _ _

theorem checked_file {data : Bytes} {items : List StreamItem} (h : file data = .ok items) :
    ∀ item ∈ items, item.Checked :=
  forall_file checked_itemOf (fun _ _ => trivial) h

end Stream

end Bilevel

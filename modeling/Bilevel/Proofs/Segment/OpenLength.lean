import Bilevel.Proofs.Segment.Stream
import Mathlib.Data.List.Chain

/-!
# Segments of open length

A header may leave the length of its data open. The end of the data is then found by looking for the
first place of a marker. It is the right one exactly if the marker doesn't appear before.

## Main definitions

* `Stream.PairFree` — a pair of bytes doesn't appear among some bytes.
* `SegmentHeader.Open` — a header that leaves the length of its data open.

## Main results

* `Stream.regionLength_eq_iff` — when the end of the data is found.
* `Stream.interleaved_open_iff` — when the segment is found in a stream.
-/

namespace Bilevel

open Bits

/-! ## The first pair of bytes -/

namespace Stream

/-- Nowhere among some bytes do two of them, one after the other, form a pair. -/
def PairFree (pair : UInt8 × UInt8) (bytes : List UInt8) : Prop :=
  bytes.IsChain fun a b => ¬(a = pair.1 ∧ b = pair.2)

instance (pair : UInt8 × UInt8) (bytes : List UInt8) : Decidable (PairFree pair bytes) :=
  inferInstanceAs (Decidable (bytes.IsChain _))

theorem getD_eq_of_drop {data : Bytes} {i : Nat} {b : UInt8} {tl : List UInt8}
    (h : data.toList.drop i = b :: tl) : data.getD i 0 = b := by
  have hget : (data.toList.drop i)[0]? = some b := by rw [h]; rfl
  rw [List.getElem?_drop, Nat.add_zero, Array.getElem?_toList] at hget
  rw [Array.getD_eq_getD_getElem?, hget, Option.getD_some]

/-- A pair is found at its first place. -/
theorem findPair_eq_iff {data : Bytes} {pair : UInt8 × UInt8} {start count : Nat}
    {front tl : List UInt8} (h : data.toList.drop start = front ++ pair.2 :: tl)
    (hlast : front.getLast? = some pair.1) (hcount : front.length ≤ count) :
    findPair data pair count start = some (start + front.length - 1) ↔ PairFree pair front := by
  induction front generalizing start count with
  | nil => cases hlast
  | cons a front ih =>
    obtain ⟨count, rfl⟩ : ∃ n, count = n + 1 := ⟨count - 1, by simp at hcount; omega⟩
    have hnext : data.toList.drop (start + 1) = front ++ pair.2 :: tl := by
      rw [← List.drop_drop, h]
      rfl
    rw [findPair, getD_eq_of_drop h]
    cases front with
    | nil =>
      obtain rfl : a = pair.1 := Option.some.inj hlast
      simp [getD_eq_of_drop hnext, PairFree]
    | cons b front =>
      rw [getD_eq_of_drop hnext, PairFree, List.isChain_cons_cons]
      by_cases hpair : a = pair.1 ∧ b = pair.2
      · simp [hpair]
      · have hplace : start + (a :: b :: front).length - 1 =
            start + 1 + (b :: front).length - 1 := by simp; omega
        rw [if_neg hpair, hplace, ih hnext (by simpa using hlast) (by simpa using hcount)]
        exact (and_iff_right hpair).symm

/-- The length of a region is found exactly if nothing in front of the marker is the same. -/
theorem regionLength_eq_iff {data : Bytes} {start front tl : List UInt8} {flags : UInt8}
    {pair : UInt8 × UInt8} (hpair : endMarker flags = pair)
    (h : data.toList = start ++ flags :: (front ++ pair.2 :: tl))
    (hstart : start.length = RegionInfo.byteCount) (htl : 4 ≤ tl.length)
    (hlast : front.getLast? = some pair.1) :
    regionLength data = .ok (start.length + 1 + front.length + 5) ↔ PairFree pair front := by
  have hflags : data[RegionInfo.byteCount]? = some flags := by
    rw [← Array.getElem?_toList, h, ← hstart, List.getElem?_append_right (Nat.le_refl _),
      Nat.sub_self]
    rfl
  have hdrop : data.toList.drop (RegionInfo.byteCount + 1) = front ++ pair.2 :: tl := by
    rw [h, ← hstart, ← List.drop_drop, List.drop_left]
    rfl
  have hsize : front.length ≤ data.size - 5 - (RegionInfo.byteCount + 1) := by
    have hlength := congrArg List.length h
    simp only [Array.length_toList, List.length_append, List.length_cons, hstart] at hlength
    omega
  have hfront : 0 < front.length := List.length_pos_of_ne_nil (by rintro rfl; cases hlast)
  rw [← findPair_eq_iff hdrop hlast hsize, regionLength, hflags, hstart, ← hpair]
  dsimp only
  split
  · next position hfound =>
    rw [hfound, Except.ok.injEq, Option.some.injEq]
    omega
  · next hnone => simp [hnone]

end Stream

/-- Whether a header can be found in a stream, and leaves the length of its data open. -/
structure SegmentHeader.Open (h : SegmentHeader) : Prop where
  fits : h.Fits
  kind : h.kind.allowsUnknownLength = true
  length : h.dataLength = none
  valid : h.validate = .ok ()

namespace Stream

variable {header : SegmentHeader}

theorem size_of_readBytes {count : Nat} {r r' : Reader} {data : Bytes}
    (h : Reader.readBytes count r = .ok (data, r')) : data.size = count := by
  unfold Reader.readBytes at h
  dsimp only at h
  split at h
  · next hroom =>
    cases h
    simp [Nat.min_eq_left hroom]
  · cases h

theorem readData_open (h : header.Open) (r : Reader) : readData header r =
    (do let length ← regionLength r.tail; Reader.readBytes length r) := by
  unfold readData
  rw [h.length]
  dsimp only
  rw [if_pos h.kind, run_bind_get]
  cases regionLength r.tail with
  | error e => rfl
  | ok length => exact run_bind_lift rfl

/-- Data of open length is found, and reading goes on behind it, exactly if its end is found. -/
theorem interleaved_open_iff (h : header.Open) (front data following : Bytes) (limit : Nat) :
    interleaved (limit + 1) ⟨front ++ (header.bytes ++ (data ++ following)), 8 * front.size⟩ =
        .segment ⟨header, data⟩ ::
          interleaved limit ⟨front ++ (header.bytes ++ (data ++ following)),
            8 * (front.size + header.bytes.size + data.size)⟩ ↔
      regionLength (data ++ following) = .ok data.size := by
  have hkind : header.kind ≠ .endOfFile := fun he => absurd (he ▸ h.kind) (by decide)
  have hitem (data' : Bytes) : itemOf header data' = .segment ⟨header, data'⟩ := by
    unfold itemOf
    rw [h.valid]
  have hsize := header.minHeaderBytes_le
  have hheader := SegmentHeader.readsBytes h.fits
    ⟨front ++ (header.bytes ++ (data ++ following)), 8 * front.size⟩ (toList (data ++ following))
    (by simp) (fun _ => Nat.dvd_mul_right 8 _) (by rw [Reader.rest_append, toList_append])
  have hbehind : Reader.skip ⟨front ++ (header.bytes ++ (data ++ following)), 8 * front.size⟩
      (toList header.bytes).length =
      ⟨(front ++ header.bytes) ++ (data ++ following), 8 * (front ++ header.bytes).size⟩ := by
    simp [Reader.skip, Nat.mul_add, Array.append_assoc]
  rw [hbehind] at hheader
  have hroom : ¬(front ++ (header.bytes ++ (data ++ following))).size ≤ 8 * front.size / 8 := by
    simp only [Array.size_append]
    omega
  have hread := readData_open h
    ⟨(front ++ header.bytes) ++ (data ++ following), 8 * (front ++ header.bytes).size⟩
  rw [Reader.tail_append] at hread
  rw [interleaved, if_neg hroom, hheader]
  dsimp only
  constructor
  · intro heq
    split at heq
    · cases heq
    · next data' r' hdata =>
      obtain rfl : data' = data := by
        rw [hitem] at heq
        injection heq with hhead
        injection hhead with hsegment
        exact congrArg Segment.data hsegment
      obtain ⟨length, hlength, hbytes⟩ := bind_eq_ok.mp (hread.symm.trans hdata)
      rw [hlength, size_of_readBytes hbytes]
  · intro hlength
    have hbytes := readsBytes_readBytes data
      ⟨(front ++ header.bytes) ++ (data ++ following), 8 * (front ++ header.bytes).size⟩
      (toList following) (by simp) (fun _ => Nat.dvd_mul_right 8 _)
      (by rw [Reader.rest_append, toList_append])
    rw [hread, hlength]
    simp only [Bind.bind, Except.bind, hbytes, hitem, if_neg hkind, length_toList, Reader.skip]
    rw [Array.size_append, ← Nat.mul_add, Array.append_assoc]

end Stream

end Bilevel

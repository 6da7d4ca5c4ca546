import Bilevel.Proofs.Bits.Movable
import Bilevel.Segment.Stream

/-!
# Streams one after another

Where a stream is cut into segments doesn't depend on what stands in front of it. A stream that can
be read to its end, and that doesn't say that the file ends there, can be continued by another one:
the items of both together are those of the first, followed by those of the second.

## Main definitions

* `StreamItem.Continues` — an item behind which a stream can go on.

## Main results

* `SegmentHeader.movable_read`, `Stream.movable_readData` — headers and data can be moved.
* `Stream.embedded_append` — the items of a stream that continues another.
-/

namespace Bilevel

open Reader

namespace SegmentHeader

theorem movable_readRetention (number : Nat) : Movable 1 (readRetention number) := by
  refine (movable_readUnsigned 1).bind fun first => ?_
  dsimp only
  split
  · exact movable_throw _
  split
  · exact ((movable_readUnsigned 3).bind fun low =>
      movable_enough ((movable_readBytes _).bind fun bytes => movable_pure _).zero).zero
  · exact movable_pure _

theorem movable_readReferred (width count : Nat) : Movable 0 (readReferred width count) := by
  induction count with
  | zero => exact movable_pure []
  | succ count ih =>
    exact ((movable_readUnsigned width).bind fun referred =>
      (ih.bind fun rest => movable_pure _).zero).zero

/-- No header is shorter than `minHeaderBytes`. -/
theorem movable_read : Movable Stream.minHeaderBytes SegmentHeader.read := by
  unfold Stream.minHeaderBytes
  refine (movable_readUnsigned 4).bind fun number => (movable_readUnsigned 1).bind fun flags => ?_
  split
  · next kind _ =>
    refine (movable_readRetention number).bind ?_
    rintro ⟨count, retention⟩
    refine (movable_readReferred _ count).bind fun referred => ?_
    have hpage : Movable 1 (readUnsigned (if flags.testBit 6 then 4 else 1)) := by
      split
      · exact (movable_readUnsigned 4).mono (by decide)
      · exact movable_readUnsigned 1
    exact hpage.bind fun page => (movable_readUnsigned 4).bind fun length => movable_pure _
  · exact movable_throw _

end SegmentHeader

/-- An item behind which a stream can go on: it could be read, and isn't the end of the file. -/
def StreamItem.Continues : StreamItem → Prop
  | .segment s => s.header.kind ≠ .endOfFile
  | .invalid header _ => header.kind ≠ .endOfFile
  | .broken _ _ => False

instance : DecidablePred StreamItem.Continues
  | .segment s => inferInstanceAs (Decidable (s.header.kind ≠ .endOfFile))
  | .invalid header _ => inferInstanceAs (Decidable (header.kind ≠ .endOfFile))
  | .broken _ _ => inferInstanceAs (Decidable False)

namespace Stream

/-! ## Data of open length -/

/-- The first place where a pair of bytes stands is the same in longer data. -/
theorem findPair_append {data : Bytes} {pair : UInt8 × UInt8} {count start position : Nat}
    (h : findPair data pair count start = some position) (hroom : start + count < data.size)
    (back : Bytes) {count' : Nat} (hcount : count ≤ count') :
    findPair (data ++ back) pair count' start = some position := by
  have hget {i : Nat} (hi : i < data.size) : (data ++ back).getD i 0 = data.getD i 0 := by
    simp [Array.getD_eq_getD_getElem?, Array.getElem?_append, hi]
  induction count generalizing start count' with
  | zero => cases h
  | succ count ih =>
    obtain ⟨count', rfl⟩ : ∃ n, count' = n + 1 := ⟨count' - 1, by omega⟩
    unfold findPair at h ⊢
    rw [hget (by omega), hget (by omega)]
    split at h
    · next hhere => rw [if_pos hhere, h]
    · next hnot =>
      rw [if_neg hnot]
      exact ih h (by omega) (by omega)

theorem regionLength_append {data : Bytes} {length : Nat} (h : regionLength data = .ok length)
    (back : Bytes) : regionLength (data ++ back) = .ok length := by
  unfold regionLength at h ⊢
  split at h
  · cases h
  · next flags hflags =>
    have hlt : RegionInfo.byteCount < data.size := (Array.getElem?_eq_some_iff.mp hflags).1
    rw [Array.getElem?_append_left hlt, hflags]
    dsimp only at h ⊢
    split at h
    · next position hfound =>
      have hroom : RegionInfo.byteCount + 1 + (data.size - 5 - (RegionInfo.byteCount + 1)) <
          data.size := by
        rcases Nat.lt_or_ge (RegionInfo.byteCount + 1) (data.size - 5) with hlong | hshort
        · omega
        · rw [Nat.sub_eq_zero_of_le hshort] at hfound
          cases hfound
      rw [findPair_append hfound hroom back (by simp; omega)]
      exact h
    · cases h

theorem movable_readData (header : SegmentHeader) : Movable 0 (readData header) := by
  unfold readData
  split
  · exact (movable_readBytes _).zero
  · split
    · exact movable_tail (fun h back => regionLength_append h back) fun length =>
        (movable_readBytes length).zero
    · exact movable_throw _

/-! ## Items -/

/-- There is no room for more segments than are looked for. -/
theorem lt_itemLimit (size : Nat) : size < minHeaderBytes * itemLimit size := by
  unfold itemLimit minHeaderBytes
  omega

theorem continues_itemOf {header : SegmentHeader} {data : Bytes}
    (h : (itemOf header data).Continues) : header.kind ≠ .endOfFile := by
  unfold itemOf at h
  split at h
  · exact h
  · exact h

/-- What is left behind a segment. -/
theorem inside_readData {header : SegmentHeader} {data : Bytes} {r s t : Reader} (hr : r.Inside)
    (hheader : SegmentHeader.read r = .ok (header, s)) (hread : readData header s = .ok (data, t)) :
    t.Inside ∧ t.data = r.data ∧ t.bytesLeft + minHeaderBytes ≤ r.bytesLeft := by
  obtain ⟨hs, hdata, hposition⟩ := SegmentHeader.movable_read.inside hr hheader
  obtain ⟨ht, hdata', hposition'⟩ := (movable_readData header).inside hs hread
  refine ⟨ht, hdata'.trans hdata, ?_⟩
  have hle := ht.le
  unfold Reader.bytesLeft
  rw [hdata', hdata] at hle ⊢
  unfold minHeaderBytes at hposition ⊢
  omega

/-- Any limit will do that is large enough for the data that is left. -/
theorem interleaved_limit {limit limit' : Nat} {r : Reader} (hr : r.Inside)
    (h : r.bytesLeft < minHeaderBytes * limit) (h' : r.bytesLeft < minHeaderBytes * limit') :
    interleaved limit r = interleaved limit' r := by
  induction limit generalizing limit' r with
  | zero => exact absurd h (Nat.not_lt_zero _)
  | succ limit ih =>
    cases limit' with
    | zero => exact absurd h' (Nat.not_lt_zero _)
    | succ limit' =>
      rw [Nat.mul_succ] at h h'
      unfold interleaved
      split
      · rfl
      split
      · rfl
      · next header s hheader =>
        split
        · rfl
        · next data t hread =>
          obtain ⟨ht, -, hleft⟩ := inside_readData hr hheader hread
          have hlimit : t.bytesLeft < minHeaderBytes * limit' := by omega
          rw [ih ht (by omega) hlimit]

/-- What stands in front of a stream makes no difference to its items. -/
theorem interleaved_within {limit : Nat} {r : Reader} (hr : r.Inside) (front : Bytes) :
    interleaved limit (r.within front #[]) = interleaved limit r := by
  induction limit generalizing r with
  | zero => rfl
  | succ limit ih =>
    have hend : (r.within front #[]).data.size ≤ (r.within front #[]).position / 8 ↔
        r.data.size ≤ r.position / 8 := by
      rw [start_within, size_within, Array.size_empty]
      omega
    unfold interleaved
    simp only [hend]
    split
    · rfl
    cases hheader : SegmentHeader.read r with
    | error e => rw [SegmentHeader.movable_read.fail hr hheader]
    | ok result =>
      obtain ⟨header, s⟩ := result
      have hs := (SegmentHeader.movable_read.inside hr hheader).1
      rw [SegmentHeader.movable_read.extend hr hheader]
      dsimp only
      cases hread : readData header s with
      | error e => rw [(movable_readData header).fail hs hread]
      | ok result =>
        obtain ⟨data, t⟩ := result
        rw [(movable_readData header).extend hs hread]
        dsimp only
        rw [ih ((movable_readData header).inside hs hread).1]

/-- Behind the last byte of a stream, the one that continues it starts. -/
theorem interleaved_within_end {limit : Nat} {r : Reader} (hr : r.Inside)
    (hend : r.data.size ≤ r.position / 8) (back : Bytes)
    (h : back.size < minHeaderBytes * limit) :
    interleaved limit (r.within #[] back) = embedded back := by
  have hposition : r.position = 8 * r.data.size := by
    have hle := hr.le
    omega
  have hstart : r.within #[] back = (ofBytes back).within r.data #[] := by
    simp [within, ofBytes, hposition]
  have hsize : (ofBytes back).bytesLeft = back.size := by simp [Reader.bytesLeft, ofBytes]
  have hlimit := lt_itemLimit back.size
  rw [hstart, interleaved_within (inside_ofBytes back), embedded]
  exact interleaved_limit (inside_ofBytes back) (by omega) (by omega)

/-- A stream that goes on behind all its items is continued by what follows it. -/
theorem interleaved_continued {limit limit' : Nat} {r : Reader} (hr : r.Inside)
    (h : r.bytesLeft < minHeaderBytes * limit)
    (hgoes : ∀ item ∈ interleaved limit r, item.Continues) (back : Bytes)
    (h' : r.bytesLeft + back.size < minHeaderBytes * limit') :
    interleaved limit' (r.within #[] back) = interleaved limit r ++ embedded back := by
  induction limit generalizing limit' r with
  | zero => exact absurd h (Nat.not_lt_zero _)
  | succ limit ih =>
    by_cases hend : r.data.size ≤ r.position / 8
    · rw [interleaved, if_pos hend, List.nil_append]
      exact interleaved_within_end hr hend back (by omega)
    · cases limit' with
      | zero => exact absurd h' (Nat.not_lt_zero _)
      | succ limit' =>
        have hend' : ¬(r.within #[] back).data.size ≤ (r.within #[] back).position / 8 := by
          rw [start_within, size_within, Array.size_empty]
          omega
        rw [Nat.mul_succ] at h h'
        unfold interleaved at hgoes ⊢
        rw [if_neg hend] at hgoes ⊢
        rw [if_neg hend']
        cases hheader : SegmentHeader.read r with
        | error e =>
          rw [hheader] at hgoes
          exact (hgoes _ List.mem_cons_self).elim
        | ok result =>
          obtain ⟨header, s⟩ := result
          have hs := (SegmentHeader.movable_read.inside hr hheader).1
          rw [hheader] at hgoes
          rw [SegmentHeader.movable_read.extend hr hheader]
          dsimp only at hgoes ⊢
          cases hread : readData header s with
          | error e =>
            rw [hread] at hgoes
            exact (hgoes _ List.mem_cons_self).elim
          | ok result =>
            obtain ⟨data, t⟩ := result
            rw [hread] at hgoes
            rw [(movable_readData header).extend hs hread]
            dsimp only at hgoes ⊢
            have hkind := continues_itemOf (hgoes _ List.mem_cons_self)
            rw [if_neg hkind] at hgoes ⊢
            obtain ⟨ht, -, hleft⟩ := inside_readData hr hheader hread
            rw [if_neg hkind, List.cons_append, ih ht (by omega)
              (fun item hmem => hgoes item (List.mem_cons_of_mem _ hmem)) (by omega)]

/-- The items of a stream that continues another. -/
theorem embedded_append {first second : Bytes} (h : ∀ item ∈ embedded first, item.Continues) :
    embedded (first ++ second) = embedded first ++ embedded second := by
  have hstart : ofBytes (first ++ second) = (ofBytes first).within #[] second := by
    simp [within, ofBytes]
  have hleft : (ofBytes first).bytesLeft = first.size := by simp [Reader.bytesLeft, ofBytes]
  have hsize : first.size + second.size < minHeaderBytes * itemLimit (first ++ second).size :=
    Array.size_append ▸ lt_itemLimit _
  rw [embedded, hstart]
  exact interleaved_continued (inside_ofBytes first) (hleft ▸ lt_itemLimit _) h second
    (hleft ▸ hsize)

end Stream
end Bilevel

import Bilevel.Proofs.Segment.Append
import Bilevel.Proofs.Segment.Header
import Bilevel.Proofs.Segment.Items

/-!
# Segments tile a stream

Whatever the data of a stream is, its items lie one behind the other in it. Every segment, valid or
not, covers a stretch of the data, which is its header and behind it its own data. The first stretch
starts with the stream and each of the others where the one before it ends. They go on to the end of
the stream, unless a segment ends the file or what comes next can't be read.

## Main definitions

* `Stream.Stretch` — the stretch that a segment covers.
* `Stream.Tiles` — the items of a stream from some byte on.

## Main results

* `Stream.exists_tiles_interleaved` — the items that are read tile the data.
* `Stream.embedded_tiles` — the items of a stream, how many there are, and what is known of its
  segments.
-/

namespace Bilevel

open Reader

namespace Reader

/-- Reading some bytes from a byte boundary on. -/
theorem readBytes_eq_ok {d data : Bytes} {start count : Nat} {t : Reader} :
    readBytes count ⟨d, 8 * start⟩ = .ok (data, t) ↔ start + count ≤ d.size ∧
      data = d.extract start (start + count) ∧ t = ⟨d, 8 * (start + count)⟩ := by
  unfold readBytes
  dsimp only
  rw [Nat.mul_div_cancel_left _ (by decide : 0 < 8), Nat.mul_add]
  split
  · next hroom =>
    rw [Except.ok.injEq, Prod.mk.injEq, and_iff_right hroom, eq_comm, @eq_comm _ t]
  · next hroom => simp [hroom]

/-- The bytes from a byte boundary on. -/
theorem tail_mk (d : Bytes) (start : Nat) : tail ⟨d, 8 * start⟩ = d.extract start d.size := by
  unfold tail
  rw [Nat.mul_div_cancel_left _ (by decide : 0 < 8)]

end Reader

namespace Stream

variable {d data : Bytes} {start middle stop : Nat} {header : SegmentHeader}
  {items : List StreamItem}

/-- The bytes from `start` to `middle` are a header, and those from there to `stop` its data. They
are as many as the header says; if it leaves this open, they end where the end is found. -/
structure Stretch (d : Bytes) (start middle stop : Nat) (header : SegmentHeader) (data : Bytes) :
    Prop where
  read : SegmentHeader.read ⟨d, 8 * start⟩ = .ok (header, ⟨d, 8 * middle⟩)
  header_size : start + minHeaderBytes ≤ middle
  middle_le : middle ≤ stop
  stop_le : stop ≤ d.size
  data : data = d.extract middle stop
  length : ∀ n ∈ header.dataLength, stop = middle + n
  unknown : header.dataLength = none → header.kind.allowsUnknownLength = true ∧
    regionLength (d.extract middle d.size) = .ok (stop - middle)

/-- From byte `start` on, the items of a stream are these, and their stretches cover the bytes up to
`stop`. -/
inductive Tiles (d : Bytes) : (start : Nat) → List StreamItem → (stop : Nat) → Prop
  /-- Nothing is left. -/
  | done : Tiles d d.size [] d.size
  /-- A header that can't be read. -/
  | unreadable {start : Nat} {error : DecodeError} (left : start < d.size)
      (read : SegmentHeader.read ⟨d, 8 * start⟩ = .error error) :
      Tiles d start [.broken none error] start
  /-- A header whose data isn't there. -/
  | truncated {start middle : Nat} {header : SegmentHeader} {error : DecodeError}
      (left : start < d.size)
      (read : SegmentHeader.read ⟨d, 8 * start⟩ = .ok (header, ⟨d, 8 * middle⟩))
      (data : readData header ⟨d, 8 * middle⟩ = .error error) :
      Tiles d start [.broken (some header) error] start
  /-- The end of the file, whatever follows it. -/
  | last {start middle stop : Nat} {header : SegmentHeader} {data : Bytes}
      (stretch : Stretch d start middle stop header data) (kind : header.kind = .endOfFile) :
      Tiles d start [itemOf header data] stop
  /-- A segment, and the items from its end on. -/
  | next {start middle after stop : Nat} {header : SegmentHeader} {data : Bytes}
      {items : List StreamItem} (stretch : Stretch d start middle after header data)
      (kind : header.kind ≠ .endOfFile) (rest : Tiles d after items stop) :
      Tiles d start (itemOf header data :: items) stop

/-! ## One segment -/

/-- What is left behind a header. -/
theorem exists_middle {s : Reader} (hstart : start ≤ d.size)
    (h : SegmentHeader.read ⟨d, 8 * start⟩ = .ok (header, s)) :
    ∃ middle, s = ⟨d, 8 * middle⟩ ∧ start + minHeaderBytes ≤ middle ∧ middle ≤ d.size := by
  have hinside : Inside ⟨d, 8 * start⟩ :=
    ⟨Nat.dvd_mul_right 8 start, Nat.mul_le_mul_left 8 hstart⟩
  obtain ⟨hs, hdata, hposition⟩ := SegmentHeader.movable_read.inside hinside h
  obtain ⟨middle, hmiddle⟩ := hs.aligned
  have hle := hs.le
  obtain ⟨data, position⟩ := s
  dsimp only at hdata hmiddle hposition hle
  subst hdata hmiddle
  exact ⟨middle, rfl, by omega, by omega⟩

/-- Where the data of a header is. -/
theorem exists_stop {t : Reader} (h : readData header ⟨d, 8 * middle⟩ = .ok (data, t)) :
    ∃ count, middle + count ≤ d.size ∧ data = d.extract middle (middle + count) ∧
      t = ⟨d, 8 * (middle + count)⟩ ∧ (∀ n ∈ header.dataLength, n = count) ∧
      (header.dataLength = none → header.kind.allowsUnknownLength = true ∧
        regionLength (d.extract middle d.size) = .ok count) := by
  unfold readData at h
  cases hlength : header.dataLength with
  | some length =>
    rw [hlength] at h
    obtain ⟨hroom, hdata, ht⟩ := readBytes_eq_ok.mp h
    exact ⟨length, hroom, hdata, ht, fun n hn => (Option.some.inj hn).symm,
      fun hnone => absurd hnone (Option.some_ne_none length)⟩
  | none =>
    rw [hlength] at h
    dsimp only at h
    split at h
    · next hkind =>
      rw [run_bind_get] at h
      obtain ⟨length, s, hlift, hread⟩ := run_bind_eq_ok.mp h
      obtain ⟨hfound, rfl⟩ := run_lift_eq_ok.mp hlift
      rw [tail_mk] at hfound
      obtain ⟨hroom, hdata, ht⟩ := readBytes_eq_ok.mp hread
      exact ⟨length, hroom, hdata, ht, fun n hn => absurd hn (Option.not_mem_none n),
        fun _ => ⟨hkind, hfound⟩⟩
    · cases h

/-- A header and its data, one behind the other, make a stretch. -/
theorem exists_stretch {s t : Reader} (hstart : start ≤ d.size)
    (hheader : SegmentHeader.read ⟨d, 8 * start⟩ = .ok (header, s))
    (hread : readData header s = .ok (data, t)) :
    ∃ middle stop, Stretch d start middle stop header data ∧ t = ⟨d, 8 * stop⟩ := by
  obtain ⟨middle, rfl, hmiddle, -⟩ := exists_middle hstart hheader
  obtain ⟨count, hroom, hdata, ht, hlength, hunknown⟩ := exists_stop hread
  refine ⟨middle, middle + count, ⟨hheader, hmiddle, Nat.le_add_right _ _, hroom, hdata,
    fun n hn => by rw [hlength n hn], fun hnone => ?_⟩, ht⟩
  rw [Nat.add_sub_cancel_left]
  exact hunknown hnone

/-! ## All segments -/

/-- The items that are read tile the data, if only there may be enough of them. -/
theorem exists_tiles_interleaved {limit : Nat} (hstart : start ≤ d.size)
    (hlimit : d.size < start + minHeaderBytes * limit) :
    ∃ stop, Tiles d start (interleaved limit ⟨d, 8 * start⟩) stop := by
  induction limit generalizing start with
  | zero => exact absurd hlimit (Nat.not_lt.mpr hstart)
  | succ limit ih =>
    unfold interleaved
    dsimp only
    rw [Nat.mul_div_cancel_left _ (by decide : 0 < 8)]
    split
    · next hend =>
      obtain rfl := Nat.le_antisymm hstart hend
      exact ⟨_, .done⟩
    next hleft =>
    have hleft : start < d.size := Nat.not_le.mp hleft
    cases hheader : SegmentHeader.read ⟨d, 8 * start⟩ with
    | error e => exact ⟨_, .unreadable hleft hheader⟩
    | ok result =>
      obtain ⟨header, s⟩ := result
      dsimp only
      cases hread : readData header s with
      | error e =>
        obtain ⟨middle, rfl, -, -⟩ := exists_middle hstart hheader
        exact ⟨_, .truncated hleft hheader hread⟩
      | ok result =>
        obtain ⟨data, t⟩ := result
        obtain ⟨middle, after, hstretch, rfl⟩ := exists_stretch hstart hheader hread
        dsimp only
        split
        · next hkind => exact ⟨_, .last hstretch hkind⟩
        · next hkind =>
          have hsize := hstretch.header_size
          have hmiddle := hstretch.middle_le
          rw [Nat.mul_succ] at hlimit
          obtain ⟨stop, hrest⟩ := ih hstretch.stop_le (by omega)
          exact ⟨stop, .next hstretch hkind hrest⟩

theorem continues_itemOf_iff : (itemOf header data).Continues ↔ header.kind ≠ .endOfFile := by
  unfold itemOf
  split <;> exact Iff.rfl

namespace Tiles

/-- Every item takes up the bytes of a header at least, but for the last one, for which there may be
a single byte. -/
theorem length_le (h : Tiles d start items stop) :
    start + 11 * items.length ≤ d.size + 10 := by
  induction h with
  | done => simp
  | unreadable left | truncated left =>
    rw [List.length_singleton]
    omega
  | last stretch =>
    have hsize : _ + 11 ≤ _ := stretch.header_size
    have hmiddle := stretch.middle_le
    have hstop := stretch.stop_le
    rw [List.length_singleton]
    omega
  | next stretch _ _ ih =>
    have hsize : _ + 11 ≤ _ := stretch.header_size
    have hmiddle := stretch.middle_le
    rw [List.length_cons]
    omega

/-- The stream goes on behind all items but the last. -/
theorem continues_of_mem_dropLast (h : Tiles d start items stop) :
    ∀ item ∈ items.dropLast, item.Continues := by
  induction h with
  | done | unreadable | truncated | last => exact fun _ hmem => absurd hmem List.not_mem_nil
  | @next _ _ _ _ _ _ items _ kind rest ih =>
    intro item hmem
    cases items with
    | nil => exact absurd hmem List.not_mem_nil
    | cons second items =>
      rcases List.mem_cons.mp hmem with rfl | hmem
      · exact continues_itemOf_iff.mpr kind
      · exact ih item hmem

/-- If it goes on behind the last one too, everything is covered. -/
theorem stop_eq (h : Tiles d start items stop) (hgoes : ∀ item ∈ items, item.Continues) :
    stop = d.size := by
  induction h with
  | done => rfl
  | unreadable | truncated => exact (hgoes _ List.mem_cons_self).elim
  | last _ kind => exact absurd kind (continues_itemOf_iff.mp (hgoes _ List.mem_cons_self))
  | next _ _ _ ih => exact ih fun item hmem => hgoes item (List.mem_cons_of_mem _ hmem)

/-- A segment was read somewhere in the data. -/
theorem exists_read (h : Tiles d start items stop) {s : Segment} (hs : .segment s ∈ items) :
    ∃ r r', SegmentHeader.read r = .ok (s.header, r') := by
  have hitem {header : SegmentHeader} {data : Bytes} (h : .segment s = itemOf header data) :
      s.header = header := by
    unfold itemOf at h
    split at h
    · exact congrArg Segment.header (StreamItem.segment.inj h)
    · cases h
  induction h with
  | done => exact absurd hs List.not_mem_nil
  | unreadable | truncated => exact absurd (List.mem_singleton.mp hs) (by simp)
  | last stretch => exact hitem (List.mem_singleton.mp hs) ▸ ⟨_, _, stretch.read⟩
  | next stretch _ _ ih =>
    rcases List.mem_cons.mp hs with hs | hs
    · exact hitem hs ▸ ⟨_, _, stretch.read⟩
    · exact ih hs

end Tiles

theorem exists_tiles_embedded (d : Bytes) : ∃ stop, Tiles d 0 (embedded d) stop := by
  refine exists_tiles_interleaved (Nat.zero_le _) ?_
  rw [Nat.zero_add]
  exact lt_itemLimit d.size

/-- A segment of a stream has no more references than can be counted. -/
theorem length_referred_lt {s : Segment} (h : .segment s ∈ embedded d) :
    s.header.referred.length < 2 ^ 29 := by
  obtain ⟨stop, htiles⟩ := exists_tiles_embedded d
  obtain ⟨r, r', hread⟩ := htiles.exists_read h
  exact (SegmentHeader.gives_read r s.header r' hread).count

/-- The items of a stream tile it. There is no more than one for every eleven bytes and another one,
and the stream goes on behind all but the last; if it does so behind the last one too, they cover it
to its end. A segment that is given out refers to earlier ones only, and belongs to a page if it has
to. -/
theorem embedded_tiles (d : Bytes) :
    (∃ stop, Tiles d 0 (embedded d) stop ∧
      ((∀ item ∈ embedded d, item.Continues) → stop = d.size)) ∧
    (embedded d).length ≤ d.size / 11 + 1 ∧
    (∀ item ∈ (embedded d).dropLast, item.Continues) ∧
    ∀ s, .segment s ∈ embedded d → (∀ n ∈ s.header.referred, n < s.header.number) ∧
      (s.header.kind.pageBound = true → s.header.page ≠ 0) := by
  obtain ⟨stop, htiles⟩ := exists_tiles_embedded d
  have hlength := htiles.length_le
  have hcontinues := htiles.continues_of_mem_dropLast
  refine ⟨⟨stop, htiles, htiles.stop_eq⟩, by omega, hcontinues, fun s hs => ?_⟩
  exact SegmentHeader.validate_eq_ok_iff.mp (checked_embedded d _ hs)

end Stream
end Bilevel

import Bilevel.Proofs.Mq.Values
import Bilevel.Proofs.Mq.Exhaustion
import Mathlib.Data.List.Chain

/-!
# The marker at the end of a stream

A byte of ones that is followed by a byte above `0x8F` is a marker. A finished stream ends with one,
and has no other: what follows a byte of ones among the coded bytes has room for a carry, and is no
larger than that. So a decoder that is given the stream, whatever it decodes, goes no further than
to this marker, and is fed with ones only there.

## Main definitions

* `MarkerAt` — a marker at a place of some bytes.
* `Decoder.UpTo` — a decoder that goes no further than to some place.

## Main results

* `Encoder.exists_front_finish` — a finished stream is coded bytes and the marker.
* `Decoder.UpTo.after` — a decoder goes no further than to the first marker.
* `finish_marker` — both together.
-/

namespace Bilevel.Mq

/-- A byte that may stand behind another one without forming a marker. -/
def Coded (a b : UInt8) : Prop := a = 0xFF → b ≤ 0x8F

/-- A byte of ones stands at a place, and behind it a byte that makes it a marker. -/
def MarkerAt (data : Bytes) (i : Nat) : Prop :=
  data[i]? = some 0xFF ∧ ∃ b, data[i + 1]? = some b ∧ 0x8F < b

/-! ## Finished streams -/

namespace Code

theorem isChain_reverse {code : List UInt8} (h : Clean code) : code.reverse.IsChain Coded := by
  rw [List.isChain_reverse]
  induction code with
  | nil => exact .nil
  | cons b p ih =>
    cases p with
    | nil => exact .singleton b
    | cons a p =>
      refine List.isChain_cons_cons.mpr ⟨?_, ih h.2⟩
      rintro rfl
      exact h.1 rfl

/-- Behind the coded bytes comes a marker, of which the first byte may be coded too. -/
theorem exists_front_bytes {code : List UInt8} (h : Clean code) :
    ∃ front, bytes code = front ++ [0xFF, 0xAC] ∧ (front ++ [0xFF]).IsChain Coded := by
  have hchain := isChain_reverse h
  unfold bytes
  by_cases hroom : room code = 7
  · cases code with
    | nil => cases hroom
    | cons b p =>
      obtain rfl : b = 0xFF := by
        by_contra hne
        rw [room_cons, if_neg hne] at hroom
        cases hroom
      refine ⟨p.reverse, by simp [hroom], ?_⟩
      rwa [List.reverse_cons] at hchain
  · refine ⟨code.reverse, by rw [if_neg hroom], ?_⟩
    refine List.isChain_append.mpr ⟨hchain, .singleton _, fun a ha b hb hones => ?_⟩
    subst hones
    cases code with
    | nil => cases ha
    | cons c p =>
      obtain rfl : c = 0xFF := by simpa using ha
      exact absurd rfl hroom

end Code

/-- A finished stream is coded bytes and the marker. -/
theorem Encoder.exists_front_finish {e : Encoder} (hreach : Encoder.start.Reaches e) :
    ∃ front, e.finish.toList = front ++ [0xFF, 0xAC] ∧ (front ++ [0xFF]).IsChain Coded := by
  rw [Encoder.finish_eq]
  exact Code.exists_front_bytes (completes_flushed_of_reaches hreach).clean

/-- Coded bytes and a marker behind them, whatever else follows. -/
theorem markerAt_iff {data : Bytes} {front t : List UInt8}
    (h : data.toList = front ++ [0xFF, 0xAC] ++ t) (hchain : (front ++ [0xFF]).IsChain Coded)
    {i : Nat} (hi : i ≤ front.length) : MarkerAt data i ↔ i = front.length := by
  have hsplit : data.toList = (front ++ [0xFF]) ++ (0xAC :: t) := by simp [h]
  unfold MarkerAt
  rw [← Array.getElem?_toList, ← Array.getElem?_toList]
  constructor
  · rintro ⟨hones, b, hb, hmark⟩
    by_contra hne
    have hlt : i + 1 < (front ++ [0xFF]).length := by simp; omega
    rw [hsplit, List.getElem?_append_left (by omega), List.getElem?_eq_getElem (by omega)] at hones
    rw [hsplit, List.getElem?_append_left hlt, List.getElem?_eq_getElem hlt] at hb
    have hle := List.isChain_iff_getElem.mp hchain i hlt (Option.some.inj hones)
    rw [Option.some.inj hb] at hle
    exact absurd hmark (UInt8.not_lt.mpr hle)
  · rintro rfl
    refine ⟨by simp [h], 0xAC, by simp [h], by decide⟩

/-! ## Decoders -/

namespace Decoder

/-- The decoder hasn't gone further than to a place, and if it was fed with ones it is there. -/
structure UpTo (m : Nat) (d : Decoder) : Prop where
  position_le : d.position ≤ m
  eq_of_fed : 0 < d.synthetic → d.position = m

/-- The first marker of some bytes stands at a place. -/
structure FirstMarker (data : Bytes) (m : Nat) : Prop where
  lt : m + 1 < data.size
  iff : ∀ i ≤ m, MarkerAt data i ↔ i = m

variable {data : Bytes} {m : Nat} {d : Decoder}

theorem markerAt_iff_byteAt {i : Nat} (hi : i + 1 < d.data.size) :
    MarkerAt d.data i ↔ d.byteAt i = 0xFF ∧ 0x8F < d.byteAt (i + 1) := by
  have hget {j : Nat} (hj : j < d.data.size) : d.byteAt j = d.data[j].toNat := by
    simp [byteAt, Array.getD, hj]
  rw [MarkerAt, Array.getElem?_eq_getElem (by omega), Array.getElem?_eq_getElem hi, hget hi,
    hget (by omega)]
  simp only [Option.some.injEq, exists_eq_left']
  exact and_congr UInt8.toNat_inj.symm UInt8.lt_iff_toNat_lt

/-- At the marker no byte is taken up, and in front of it the next one. -/
theorem UpTo.takeByte (hm : FirstMarker d.data m) (h : d.UpTo m) :
    d.takeByte.UpTo m ∧ d.takeByte.data = d.data := by
  have hle := h.position_le
  have hlt := hm.lt
  have hmark := (markerAt_iff_byteAt (d := d) (i := d.position) (by omega)).symm.trans
    (hm.iff d.position hle)
  have hfed := h.eq_of_fed
  by_cases hend : d.position = m
  · obtain ⟨hones, hcode⟩ := hmark.mpr hend
    simp only [Decoder.takeByte, hones, hcode, if_true]
    exact ⟨⟨hle, fun _ => hend⟩, trivial⟩
  · have hpos : d.synthetic = 0 := by
      by_contra hne
      exact hend (hfed (Nat.pos_of_ne_zero hne))
    have hnext : ∀ c ahead, UpTo m { d with position := d.position + 1, c, ahead } := fun c ahead =>
      ⟨by simp only; omega, fun hsome => by simp only at hsome; omega⟩
    by_cases hones : d.byteAt d.position = 0xFF
    · have hcode : ¬0x8F < d.byteAt (d.position + 1) := fun hcode => hend (hmark.mp ⟨hones, hcode⟩)
      simp only [Decoder.takeByte, hones, hcode, if_true, if_false]
      exact ⟨hnext _ _, trivial⟩
    · simp only [Decoder.takeByte, hones, if_false]
      exact ⟨hnext _ _, trivial⟩

theorem UpTo.double (hm : FirstMarker d.data m) (h : d.UpTo m) :
    d.double.UpTo m ∧ d.double.data = d.data := by
  obtain ⟨hup, hdata⟩ := h.takeByte hm
  rcases Nat.eq_zero_or_pos d.ahead with hzero | hsome
  · rw [double_eq_of_ahead_zero hzero]
    exact ⟨⟨hup.position_le, hup.eq_of_fed⟩, hdata⟩
  · rw [double_eq_of_ahead_pos hsome]
    exact ⟨⟨h.position_le, h.eq_of_fed⟩, rfl⟩

theorem UpTo.doubleTimes (hm : FirstMarker d.data m) (h : d.UpTo m) (n : Nat) :
    (d.doubleTimes n).UpTo m ∧ (d.doubleTimes n).data = d.data := by
  induction n generalizing d with
  | zero => exact ⟨h, rfl⟩
  | succ n ih =>
    obtain ⟨hup, hdata⟩ := h.double hm
    obtain ⟨hup', hdata'⟩ := ih (hdata ▸ hm) hup
    exact ⟨hup', hdata'.trans hdata⟩

theorem UpTo.decode (hm : FirstMarker d.data m) (h : d.UpTo m) (cx : Context) :
    (d.decode cx).2.2.UpTo m ∧ (d.decode cx).2.2.data = d.data := by
  obtain ⟨bit, learnt, upper, heq⟩ := exists_decode_eq d cx
  have hnarrow : (d.narrow upper cx.estimate.qe).UpTo m ∧
      (d.narrow upper cx.estimate.qe).data = d.data := by
    unfold narrow
    cases upper <;> exact ⟨⟨h.position_le, h.eq_of_fed⟩, rfl⟩
  rw [heq]
  obtain ⟨hup, hdata⟩ := hnarrow.1.doubleTimes (hnarrow.2 ▸ hm) _
  exact ⟨hup, hdata.trans hnarrow.2⟩

/-- A decoder goes no further than to the first marker, in whatever contexts it decodes. -/
theorem UpTo.after (hm : FirstMarker d.data m) (h : d.UpTo m) (contexts : List Context) :
    (d.after contexts).UpTo m := by
  induction contexts generalizing d with
  | nil => exact h
  | cons cx contexts ih =>
    obtain ⟨hup, hdata⟩ := h.decode hm cx
    exact ih (hdata ▸ hm) hup

theorem upTo_ofBytes (hm : FirstMarker data m) : (ofBytes data).UpTo m := by
  let first : Decoder := ⟨data, 0, 0, 0, 0, 0⟩
  let start : Decoder := { first with c := 0x10000 * (255 - first.byteAt 0) }
  have hstart : start.UpTo m := ⟨Nat.zero_le m, fun h => absurd h (Nat.lt_irrefl 0)⟩
  obtain ⟨hup, -⟩ := hstart.takeByte hm
  exact ⟨hup.position_le, hup.eq_of_fed⟩

end Decoder

/-- Decisions in any contexts make a stream that ends with the marker `FF AC`. There is no other
marker in it, and a decoder of the stream, whatever follows it and in whatever contexts it decodes,
goes no further than to this one and is fed with ones only there. -/
theorem finish_marker (contexts : Contexts) (decisions : List (Nat × Bool)) :
    let stream := (Encoder.start.encodeAll contexts decisions).2.finish
    (∃ front, stream.toList = front ++ [0xFF, 0xAC]) ∧
    (∀ i, MarkerAt stream i ↔ i + 2 = stream.size) ∧
    (∀ i, stream[i]? = some 0xFF ∧ stream[i + 1]? = some 0xAC ↔ i + 2 = stream.size) ∧
    ∀ (t : Bytes) (cxs : List Context),
      let d := (Decoder.ofBytes (stream ++ t)).after cxs
      d.position + 2 ≤ stream.size ∧ (0 < d.synthetic → d.position + 2 = stream.size) := by
  intro stream
  obtain ⟨front, hfront, hchain⟩ :=
    Encoder.exists_front_finish (Encoder.reaches_encodeAll Encoder.start contexts decisions)
  change stream.toList = _ at hfront
  have hsize : stream.size = front.length + 2 := by rw [← Array.length_toList, hfront]; simp
  have hmarker (i : Nat) : MarkerAt stream i ↔ i + 2 = stream.size := by
    by_cases hi : i ≤ front.length
    · rw [markerAt_iff (t := []) (by rw [hfront, List.append_nil]) hchain hi]
      omega
    · -- the last byte isn't one of ones, and behind it there is none
      refine iff_of_false (fun ⟨hones, b, hb, _⟩ => ?_) (by omega)
      have hlast : i + 1 < stream.size := (Array.getElem?_eq_some_iff.mp hb).1
      omega
  refine ⟨⟨front, hfront⟩, hmarker, fun i => ⟨fun ⟨hones, hcode⟩ => ?_, fun hi => ?_⟩, ?_⟩
  · exact (hmarker i).mp ⟨hones, 0xAC, hcode, by decide⟩
  · obtain rfl : i = front.length := by omega
    rw [← Array.getElem?_toList, ← Array.getElem?_toList, hfront]
    simp
  · intro t cxs
    have hfirst : Decoder.FirstMarker (stream ++ t) front.length := by
      refine ⟨by rw [Array.size_append]; omega, fun i hi => ?_⟩
      exact markerAt_iff (t := t.toList) (by rw [Array.toList_append, hfront]) hchain hi
    have hdata := (Decoder.ofBytes_spec (stream ++ t)).2.1
    have hup := (Decoder.upTo_ofBytes hfirst).after (hdata.symm ▸ hfirst) cxs
    have hle := hup.position_le
    have heq := hup.eq_of_fed
    exact ⟨by omega, fun hfed => by rw [heq hfed, hsize]⟩

end Bilevel.Mq

import Bilevel.Proofs.Mq.Sync

/-!
# Decoders run out of data

A decision may take up no data at all, so nothing that can be seen from outside has to change with
it. What it does change is the interval, which gets smaller or is doubled. The effort of a decoder
counts both, a doubling for as much as an interval can lose before it is doubled: every decision
makes it larger, and the data, with the bytes that a decoder may want behind it, allow only so much
of it.

## Main definitions

* `Decoder.after` — a decoder after some decisions.
* `Decoder.Steady` — what holds of a decoder between two decisions.
* `Decoder.effort` — a number that every decision makes larger.

## Main results

* `Decoder.Steady.after` — every decision takes effort.
* `Decoder.Steady.effort_le` — a decoder that isn't exhausted has made a limited effort.
* `Decoder.exhausted_after` — a decoder is exhausted after as many decisions as its data allows.
-/

namespace Bilevel.Mq

namespace Decoder

/-- The decoder after one decision in each of the given contexts. -/
def after (d : Decoder) (contexts : List Context) : Decoder :=
  contexts.foldl (fun d cx => (d.decode cx).2.2) d

@[simp] theorem after_nil (d : Decoder) : d.after [] = d := rfl

theorem after_cons (d : Decoder) (cx : Context) (contexts : List Context) :
    d.after (cx :: contexts) = (d.decode cx).2.2.after contexts := rfl

theorem after_append (d : Decoder) (contexts more : List Context) :
    d.after (contexts ++ more) = (d.after contexts).after more := List.foldl_append

/-- The number of bytes that the decoder has wanted, those behind the data included. -/
def wanted (d : Decoder) : Nat := d.position + d.synthetic

/-- A number that every decision makes larger: the doublings of the interval, which are the bits
that were wanted and aren't ahead, and what the interval has lost since the last of them. -/
def effort (d : Decoder) : Nat := 0x8000 * (8 * d.wanted - d.ahead) + (0x10000 - d.a)

/-- What holds of a decoder at every time. -/
structure Fed (d : Decoder) : Prop where
  a_pos : 0 < d.a
  a_lt : d.a < 0x10000
  ahead_le : d.ahead ≤ 8
  wanted_pos : 0 < d.wanted
  position_le : d.position ≤ d.data.size

/-- What holds of a decoder between two decisions. -/
structure Steady (d : Decoder) : Prop extends d.Fed where
  le_a : 0x8000 ≤ d.a

/-- The decoder `d'` has the same data, and isn't behind `d`. -/
structure Later (d d' : Decoder) : Prop where
  data_eq : d'.data = d.data
  effort_le : d.effort ≤ d'.effort
  synthetic_le : d.synthetic ≤ d'.synthetic

variable {d d' d'' : Decoder}

theorem Later.refl (d : Decoder) : d.Later d := ⟨rfl, le_rfl, le_rfl⟩

theorem Later.trans (h : d.Later d') (h' : d'.Later d'') : d.Later d'' :=
  ⟨h'.data_eq.trans h.data_eq, h.effort_le.trans h'.effort_le, h.synthetic_le.trans h'.synthetic_le⟩

/-! ## Taking up bytes -/

theorem lt_size_of_byteAt {i : Nat} (h : d.byteAt i ≠ 0xFF) : i < d.data.size := by
  by_contra hle
  apply h
  simp [byteAt, Array.getD, hle]

/-- One more byte was wanted, and one that was taken up is in the data. -/
theorem takeByte_spec (h : d.position ≤ d.data.size) :
    d.takeByte.data = d.data ∧ d.takeByte.a = d.a ∧ d.takeByte.wanted = d.wanted + 1 ∧
      (d.takeByte.ahead = 7 ∨ d.takeByte.ahead = 8) ∧ d.takeByte.position ≤ d.data.size ∧
      d.synthetic ≤ d.takeByte.synthetic := by
  by_cases hones : d.byteAt d.position = 0xFF
  · by_cases hmark : 0x8F < d.byteAt (d.position + 1)
    · simp only [takeByte, hones, hmark, if_true, wanted]
      exact ⟨trivial, trivial, by omega, .inr trivial, h, by omega⟩
    · have hnext : d.position + 1 < d.data.size := lt_size_of_byteAt (by omega)
      simp only [takeByte, hones, hmark, if_true, if_false, wanted]
      exact ⟨trivial, trivial, by omega, .inl trivial, by omega, le_rfl⟩
  · have hhere : d.position < d.data.size := lt_size_of_byteAt hones
    simp only [takeByte, hones, if_false, wanted]
    exact ⟨trivial, trivial, by omega, .inr trivial, by omega, le_rfl⟩

/-! ## Doubling -/

theorem double_eq_of_ahead_pos (h : 0 < d.ahead) :
    d.double = { d with a := 2 * d.a, c := 2 * d.c % 0x100000000, ahead := d.ahead - 1 } := by
  simp only [double, if_neg h.ne']

theorem double_eq_of_ahead_zero (h : d.ahead = 0) :
    d.double = { d.takeByte with
      a := 2 * d.takeByte.a, c := 2 * d.takeByte.c % 0x100000000,
      ahead := d.takeByte.ahead - 1 } := by
  simp only [double, if_pos h]

/-- Doubling counts for more than what the size of the interval gains by it. -/
theorem Fed.double (h : d.Fed) (ha : d.a < 0x8000) :
    d.double.Fed ∧ d.Later d.double ∧ d.double.a = 2 * d.a := by
  obtain ⟨hpos, -, hahead, hwanted, hposition⟩ := h
  rcases Nat.eq_zero_or_pos d.ahead with hzero | hsome
  · obtain ⟨hdata, hta, htw, hta', htp, hts⟩ := takeByte_spec hposition
    rw [double_eq_of_ahead_zero hzero]
    refine ⟨⟨?_, ?_, ?_, ?_, ?_⟩, ⟨hdata, ?_, hts⟩, ?_⟩ <;>
      simp only [hta, hdata, wanted, effort] at htw hta' htp ⊢ <;> unfold wanted at * <;> omega
  · rw [double_eq_of_ahead_pos hsome]
    refine ⟨⟨?_, ?_, ?_, hwanted, hposition⟩, ⟨rfl, ?_, le_rfl⟩, rfl⟩ <;>
      simp only [effort, wanted] at hwanted ⊢ <;> omega

theorem Fed.doubleTimes (h : d.Fed) {n : Nat} (hn : d.a * 2 ^ n < 0x10000) :
    (d.doubleTimes n).Fed ∧ d.Later (d.doubleTimes n) ∧ (d.doubleTimes n).a = d.a * 2 ^ n := by
  induction n generalizing d with
  | zero =>
    rw [Decoder.doubleTimes, pow_zero, Nat.mul_one]
    exact ⟨h, .refl d, rfl⟩
  | succ n ih =>
    have hpow := Nat.one_le_two_pow (n := n)
    have heq : d.a * 2 ^ (n + 1) = 2 * d.a * 2 ^ n := by ring
    have ha : d.a < 0x8000 := by
      have := Nat.le_mul_of_pos_right (2 * d.a) hpow
      omega
    obtain ⟨hfed, hlater, hda⟩ := h.double ha
    obtain ⟨hfed', hlater', hda'⟩ := ih hfed (by rw [hda, ← heq]; exact hn)
    refine ⟨hfed', hlater.trans hlater', ?_⟩
    rw [Decoder.doubleTimes, hda', hda, heq]

theorem Fed.renormalize (h : d.Fed) : d.renormalize.Steady ∧ d.Later d.renormalize := by
  obtain ⟨hle, hlt⟩ := Encoder.renormalized_size h.a_pos h.a_lt
  obtain ⟨hfed, hlater, ha⟩ := h.doubleTimes hlt
  unfold Decoder.renormalize
  exact ⟨⟨hfed, by rw [ha]; exact hle⟩, hlater⟩

/-! ## Decisions -/

/-- A decision goes on to one of the two parts of the interval. -/
theorem exists_decode_eq (d : Decoder) (cx : Context) :
    ∃ bit learnt upper,
      d.decode cx = (bit, learnt, (d.narrow upper cx.estimate.qe).renormalize) := by
  by_cases hupper : d.c / 0x10000 < d.a - cx.estimate.qe
  · by_cases hle : 0x8000 ≤ d.a - cx.estimate.qe
    · exact ⟨cx.mps, cx, true, by simp [decode, narrow, hupper, hle, renormalize_of_le]⟩
    · by_cases hlt : d.a - cx.estimate.qe < cx.estimate.qe
      · exact ⟨!cx.mps, cx.afterLps, true, by simp [decode, narrow, hupper, hle, hlt]⟩
      · exact ⟨cx.mps, cx.afterMps, true, by simp [decode, narrow, hupper, hle, hlt]⟩
  · by_cases hlt : d.a - cx.estimate.qe < cx.estimate.qe
    · exact ⟨cx.mps, cx.afterMps, false, by simp [decode, narrow, hupper, hlt]⟩
    · exact ⟨!cx.mps, cx.afterLps, false, by simp [decode, narrow, hupper, hlt]⟩

/-- Both parts of the interval are smaller than all of it. -/
theorem Steady.narrow (h : d.Steady) (upper : Bool) (cx : Context) :
    (d.narrow upper cx.estimate.qe).Fed ∧ d.Later (d.narrow upper cx.estimate.qe) ∧
      d.effort < (d.narrow upper cx.estimate.qe).effort := by
  obtain ⟨⟨hpos, hlt, hahead, hwanted, hposition⟩, hle⟩ := h
  have hqe := cx.qe_pos
  have hqe' := cx.qe_le
  unfold Decoder.narrow
  cases upper with
  | true =>
    refine ⟨⟨?_, ?_, hahead, hwanted, hposition⟩, ⟨rfl, ?_, le_rfl⟩, ?_⟩ <;>
      simp only [if_true, effort, wanted] <;> omega
  | false =>
    refine ⟨⟨?_, ?_, hahead, hwanted, hposition⟩, ⟨rfl, ?_, le_rfl⟩, ?_⟩ <;>
      simp only [Bool.false_eq_true, if_false, effort, wanted] <;> omega

theorem Steady.decode (h : d.Steady) (cx : Context) :
    (d.decode cx).2.2.Steady ∧ d.Later (d.decode cx).2.2 ∧
      d.effort < (d.decode cx).2.2.effort := by
  obtain ⟨bit, learnt, upper, heq⟩ := exists_decode_eq d cx
  obtain ⟨hfed, hlater, heffort⟩ := h.narrow upper cx
  obtain ⟨hsteady, hlater'⟩ := hfed.renormalize
  rw [heq]
  exact ⟨hsteady, hlater.trans hlater', heffort.trans_le hlater'.effort_le⟩

/-- Every decision takes effort. -/
theorem Steady.after (h : d.Steady) (contexts : List Context) :
    (d.after contexts).Steady ∧ d.Later (d.after contexts) ∧
      contexts.length + d.effort ≤ (d.after contexts).effort := by
  induction contexts generalizing d with
  | nil => exact ⟨h, .refl d, by simp⟩
  | cons cx contexts ih =>
    obtain ⟨hsteady, hlater, heffort⟩ := h.decode cx
    obtain ⟨hsteady', hlater', heffort'⟩ := ih hsteady
    rw [after_cons, List.length_cons]
    exact ⟨hsteady', hlater.trans hlater', by omega⟩

/-! ## The end of the data -/

/-- The decoder has wanted one byte and taken up seven or eight of its bits. -/
theorem ofBytes_spec (data : Bytes) :
    (ofBytes data).Steady ∧ (ofBytes data).data = data ∧ 0x40000 ≤ (ofBytes data).effort ∧
      (ofBytes data).synthetic ≤ 1 := by
  let first : Decoder := ⟨data, 0, 0, 0, 0, 0⟩
  let start : Decoder := { first with c := 0x10000 * (255 - first.byteAt 0) }
  have hstart : start.wanted = 0 := rfl
  obtain ⟨hdata, -, hwanted, hahead, hposition, -⟩ :=
    start.takeByte_spec (Nat.zero_le start.data.size)
  rw [hstart] at hwanted
  have heq : ofBytes data = { start.takeByte with
      c := 0x80 * start.takeByte.c % 0x100000000, ahead := start.takeByte.ahead - 7,
      a := 0x8000 } := rfl
  unfold wanted at hwanted
  rw [heq]
  refine ⟨⟨⟨?_, ?_, ?_, ?_, ?_⟩, ?_⟩, hdata, ?_, ?_⟩ <;>
    simp only [effort, wanted, hdata] at * <;> omega

/-- A decoder that isn't exhausted has made a limited effort. -/
theorem Steady.effort_le (h : d.Steady) (hmore : d.exhausted = false) :
    d.effort ≤ 0x40000 * (d.data.size + 32) + 0x8000 := by
  have hposition := h.position_le
  have hle := h.le_a
  have hsyn : d.synthetic ≤ 32 := Nat.not_lt.mp (of_decide_eq_false hmore)
  unfold effort wanted
  omega

theorem checkData_eq_ok : d.checkData = .ok () ↔ d.exhausted = false := by
  unfold checkData
  cases d.exhausted <;> simp

end Decoder
end Bilevel.Mq

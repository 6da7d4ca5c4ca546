import Bilevel.Mq.SymbolId
import Bilevel.Proofs.Mq.Decisions
import Bilevel.Proofs.Steps

/-!
# Numbers as decisions

A decoder that is in step with an encoder decodes the numbers that the encoder encodes next, and is
in step with it afterwards. The decisions of an encoder are counted by its effort, which the length
of its stream bounds.

## Main results

* `Integer.decode_encode` — integers and the out-of-band value.
* `SymbolId.decode_encode` — numbers of symbols.
* `Integer.representable_of_decode` — an encoded number that can be decoded is not too large.
* `Encoder.effort_lt_of_completes` — a bound for the number of decisions in a stream.
-/

namespace Bilevel.Mq

open Code

/-! ## Being in step -/

/-- A decoder is in step with an encoder that is ready for a decision. -/
structure Follows (code t : List UInt8) (e : Encoder) (d : Decoder) : Prop where
  ready : e.Ready
  synced : Synced code t e d

namespace Follows

variable {code t : List UInt8} {e f : Encoder} {d : Decoder}

theorem decodeAt (h : Follows code t e d) (contexts : Contexts) (i : Nat) (bit : Bool)
    (hc : (e.encodeAt contexts i bit).2.Completes code) :
    ∃ d', d.decodeAt contexts i = (bit, (e.encodeAt contexts i bit).1, d') ∧
      Follows code t (e.encodeAt contexts i bit).2 d' := by
  obtain ⟨d', hd, hs⟩ := h.synced.decodeAt h.ready contexts i bit hc
  exact ⟨d', hd, (Encoder.Reaches.encodeAt e contexts i bit).ready h.ready, hs⟩

theorem checkData (h : Follows code t e d) (hc : e.Completes code) : d.checkData = .ok () :=
  h.synced.checkData hc

end Follows

/-- A decoder of a finished stream is in step with an encoder that starts. -/
theorem follows_ofBytes {f : Encoder} {data : Bytes} {t : List UInt8}
    (hreach : Encoder.start.Reaches f) (hdata : data.toList = f.finish.toList ++ t) :
    Follows f.flushed.code t Encoder.start (Decoder.ofBytes data) :=
  ⟨Encoder.start_ready, synced_ofBytes hreach hdata⟩

theorem completes_flushed_of_reaches {f : Encoder} (hreach : Encoder.start.Reaches f) :
    f.Completes f.flushed.code :=
  Encoder.completes_flushed (hreach.ready Encoder.start_ready)

/-! ## Effort -/

namespace Encoder

/-- A number that every decision makes larger: each doubling counts as much as an interval can
lose before it is doubled. -/
def effort (e : Encoder) : Nat := 0x8000 * e.doublings + (0x10000 - e.a)

theorem effort_encode {e : Encoder} (h : e.Ready) (cx : Context) (bit : Bool) :
    e.effort < (e.encode cx bit).2.effort := by
  obtain ⟨n, d⟩ := doubled_encode h cx bit
  have hready := ready_encode h cx bit
  have hnarrow := a_narrow (cx.takesUpper e.a bit) cx.qe_pos (qe_lt_a h cx)
  have hdoublings : (e.narrow (cx.takesUpper e.a bit) cx.estimate.qe).doublings = e.doublings := by
    unfold doublings
    rw [code_narrow, free_narrow]
  have hle := h.le_a
  have hlt := h.a_lt
  have hlt' := hready.a_lt
  unfold effort
  rw [d.doublings_eq, hdoublings]
  rcases Nat.eq_zero_or_pos n with rfl | hn
  · have ha := d.a_eq
    rw [pow_zero, Nat.mul_one] at ha
    omega
  · omega

theorem effort_le_of_reaches {e f : Encoder} (h : e.Ready) (hreach : e.Reaches f) :
    e.effort ≤ f.effort := by
  induction hreach with
  | refl => exact le_rfl
  | encode cx bit _ ih =>
    exact (effort_encode h cx bit).le.trans (ih (ready_encode h cx bit))

theorem effort_lt_encodeAt {e f : Encoder} (h : e.Ready) (contexts : Contexts) (i : Nat)
    (bit : Bool) (hreach : (e.encodeAt contexts i bit).2.Reaches f) : e.effort < f.effort :=
  (effort_encode h _ bit).trans_le (effort_le_of_reaches (ready_encode h _ bit) hreach)

/-- A stream has room for the decisions in it only. -/
theorem effort_lt_of_completes {e : Encoder} {code : List UInt8} (hc : e.Completes code) :
    e.effort < 0x40000 * code.length + 0x10000 := by
  have hlong := hc.long
  have hbits := bits_le_length code
  unfold effort
  omega

end Encoder

/-! ## Integers -/

theorem mod_two_pow_succ (n count : Nat) :
    n % 2 ^ (count + 1) = (n.testBit count).toNat * 2 ^ count + n % 2 ^ count := by
  rw [Nat.toNat_testBit, Nat.mod_pow_succ, Nat.mul_comm, Nat.add_comm]

namespace Integer

theorem reaches_encodeBits (e : Encoder) (contexts : Contexts) (previous : Nat)
    (bits : List Bool) : e.Reaches (encodeBits e contexts previous bits).2 := by
  induction bits generalizing e contexts previous with
  | nil => exact .refl e
  | cons bit bits ih => exact (Encoder.Reaches.encodeAt e contexts previous bit).trans (ih _ _ _)

theorem reaches_encode (e : Encoder) (contexts : Contexts) (value : Value) :
    e.Reaches (encode e contexts value).2 := reaches_encodeBits ..

theorem effort_lt_encode {e : Encoder} (h : e.Ready) (contexts : Contexts) (value : Value) :
    e.effort < (encode e contexts value).2.effort := by
  unfold encode
  cases value <;> exact Encoder.effort_lt_encodeAt h _ _ _ (reaches_encodeBits ..)

/-- A decoder in the middle of a code word, and an encoder that has `rest` left to encode before it
is the encoder `f` with the contexts `learnt`. -/
structure Midway (code t : List UInt8) (s : Decoding) (rest : List Bool) (learnt : Contexts)
    (f : Encoder) : Prop where
  follows : ∃ e, Follows code t e s.decoder ∧
    encodeBits e s.contexts s.previous rest = (learnt, f)

/-- The magnitude `n` is in one of the ranges that are left. -/
def InRange (n : Nat) : List Tier → Prop
  | [] => lastTier.offset ≤ n ∧ n < lastTier.offset + 2 ^ lastTier.bits
  | tier :: rest => tier.offset ≤ n ∧ (tier.offset + 2 ^ tier.bits ≤ n → InRange n rest)

theorem inRange_tiers {n : Nat} (h : n ≤ 0xFFFFFFFF) : InRange n tiers := by
  simp only [tiers, InRange, lastTier]
  omega

section

variable {code t : List UInt8} {s : Decoding} {rest : List Bool} {learnt : Contexts} {f : Encoder}
  (hc : f.Completes code)
include hc

theorem Midway.readBit {bit : Bool} (h : Midway code t s (bit :: rest) learnt f) :
    ∃ s', s.readBit = (bit, s') ∧ Midway code t s' rest learnt f := by
  obtain ⟨e, hfollows, hrest⟩ := h.follows
  have hreach := reaches_encodeBits (e.encodeAt s.contexts s.previous bit).2
    (e.encodeAt s.contexts s.previous bit).1 (nextContext s.previous bit) rest
  have hrest' : encodeBits (e.encodeAt s.contexts s.previous bit).2
      (e.encodeAt s.contexts s.previous bit).1 (nextContext s.previous bit) rest = (learnt, f) :=
    hrest
  rw [hrest'] at hreach
  have hready := (Encoder.Reaches.encodeAt e s.contexts s.previous bit).ready hfollows.ready
  obtain ⟨d, hd, hfollows'⟩ :=
    hfollows.decodeAt s.contexts s.previous bit (hreach.completes hready hc)
  refine ⟨⟨d, (e.encodeAt s.contexts s.previous bit).1, nextContext s.previous bit⟩, ?_,
    ⟨_, hfollows', hrest'⟩⟩
  simp only [Decoding.readBit, hd]

theorem Midway.readBits {count n m : Nat}
    (h : Midway code t s (Bits.lowBits count m ++ rest) learnt f) :
    ∃ s', s.readBits count n = (n * 2 ^ count + m % 2 ^ count, s') ∧
      Midway code t s' rest learnt f := by
  induction count generalizing s n with
  | zero => exact ⟨s, by simp [Decoding.readBits, Nat.mod_one], h⟩
  | succ count ih =>
    obtain ⟨s', hbit, h'⟩ := Midway.readBit hc h
    obtain ⟨s'', hbits, h''⟩ := ih (n := 2 * n + (m.testBit count).toNat) h'
    refine ⟨s'', ?_, h''⟩
    simp only [Decoding.readBits, hbit, hbits, mod_two_pow_succ]
    rw [pow_succ]
    congr 1
    ring

theorem Midway.readMagnitude {ts : List Tier} {n : Nat} (hn : InRange n ts)
    (h : Midway code t s (magnitudeBits n ts ++ rest) learnt f) :
    ∃ s', s.readMagnitude ts = (n, s') ∧ Midway code t s' rest learnt f := by
  induction ts generalizing s with
  | nil =>
    obtain ⟨s', hbits, h'⟩ := Midway.readBits hc (n := 0) h
    have hmod := Nat.mod_eq_of_lt (Nat.sub_lt_left_of_lt_add hn.1 hn.2)
    refine ⟨s', ?_, h'⟩
    simp only [Decoding.readMagnitude, hbits, hmod, Nat.zero_mul, Nat.zero_add,
      Nat.add_sub_cancel' hn.1]
  | cons tier ts ih =>
    rw [magnitudeBits, Nat.one_shiftLeft] at h
    split at h
    · next hlt =>
      obtain ⟨s', hbit, h'⟩ := Midway.readBit hc h
      obtain ⟨s'', hbits, h''⟩ := Midway.readBits hc (n := 0) h'
      have hmod := Nat.mod_eq_of_lt (Nat.sub_lt_left_of_lt_add hn.1 hlt)
      refine ⟨s'', ?_, h''⟩
      simp only [Decoding.readMagnitude, hbit, hbits, hmod, Nat.zero_mul, Nat.zero_add,
        Nat.add_sub_cancel' hn.1, Bool.false_eq_true, if_false]
    · next hge =>
      obtain ⟨s', hbit, h'⟩ := Midway.readBit hc h
      obtain ⟨s'', hmagnitude, h''⟩ := ih (hn.2 (by omega)) h'
      exact ⟨s'', by simp only [Decoding.readMagnitude, hbit, hmagnitude, if_true], h''⟩

end

/-- A value of which the magnitude fits a signed number. -/
def Representable (value : Value) : Prop := ∀ n ∈ value, n.natAbs ≤ 0x7FFFFFFF

theorem representable_none : Representable none := fun _ h => absurd h (Option.not_mem_none _)

theorem representable_some {n : Int} (h : n.natAbs ≤ 0x7FFFFFFF) : Representable (some n) :=
  fun m hm => by rwa [← Option.some.inj hm]

/-- The magnitude of a value; the out-of-band value is written as a zero. -/
def magnitude (value : Value) : Nat := (value.map Int.natAbs).getD 0

theorem representable_iff {value : Value} :
    Representable value ↔ magnitude value ≤ 0x7FFFFFFF := by
  unfold Representable magnitude
  cases value <;> simp

/-- The sign and the magnitude of the code word of a value. -/
theorem exists_code (value : Value) :
    ∃ negative, code value = negative :: magnitudeBits (magnitude value) tiers ∧
      ofMagnitude negative (magnitude value) = value := by
  cases value with
  | none => exact ⟨true, rfl, rfl⟩
  | some n =>
    refine ⟨decide (n < 0), rfl, ?_⟩
    simp only [magnitude, Option.map_some, Option.getD_some]
    unfold ofMagnitude
    by_cases hneg : n < 0
    · have hne : n.natAbs ≠ 0 := by omega
      rw [if_pos (decide_eq_true hneg), if_neg hne]
      congr 1
      omega
    · rw [if_neg (by simpa using hneg)]
      congr 1
      omega

/-- Decode a value, with the decoder that goes on behind it even if its magnitude is too large. -/
def decodeOn (d : Decoder) (contexts : Contexts) : Except DecodeError Value × Contexts × Decoder :=
  let (negative, s) := (Decoding.mk d contexts 1).readBit
  let (n, s) := s.readMagnitude tiers
  let value : Except DecodeError Value := do
    s.decoder.checkData
    if n ≤ 0x7FFFFFFF then return ofMagnitude negative n else throw .overflow
  (value, s.contexts, s.decoder)

theorem decode_eq_decodeOn (d : Decoder) (contexts : Contexts) :
    decode d contexts = (decodeOn d contexts).1.map (·, (decodeOn d contexts).2) := by
  simp only [decode, decodeOn]
  generalize (Decoding.mk d contexts 1).readBit = sign
  generalize sign.2.readMagnitude tiers = read
  cases read.2.decoder.checkData with
  | error e => rfl
  | ok _ =>
    by_cases hle : read.1 ≤ 0x7FFFFFFF
    · simp only [hle, if_true]
      rfl
    · simp only [hle, if_false]
      rfl

section

variable {bytes t : List UInt8} {e : Encoder} {d : Decoder} {contexts : Contexts} {value : Value}

/-- A decoder that is in step decodes the value that is encoded next, unless its magnitude is too
large. In either case it stays in step. -/
theorem decodeOn_eq (h : Follows bytes t e d) (hv : magnitude value ≤ 0xFFFFFFFF)
    (hc : (encode e contexts value).2.Completes bytes) :
    ∃ d', decodeOn d contexts = (if magnitude value ≤ 0x7FFFFFFF then .ok value
        else .error .overflow, (encode e contexts value).1, d') ∧
      Follows bytes t (encode e contexts value).2 d' := by
  obtain ⟨negative, hcode, hvalue⟩ := exists_code value
  have hstart : Midway bytes t ⟨d, contexts, 1⟩
      (negative :: (magnitudeBits (magnitude value) tiers ++ []))
      (encode e contexts value).1 (encode e contexts value).2 :=
    ⟨e, h, by rw [List.append_nil, ← hcode]; rfl⟩
  obtain ⟨s, hsign, hs⟩ := Midway.readBit hc hstart
  obtain ⟨s', hmagnitude, ⟨e', hfollows, hend⟩⟩ := Midway.readMagnitude hc (inRange_tiers hv) hs
  obtain ⟨hlearnt, hencoder⟩ := Prod.mk.inj hend
  rw [hencoder] at hfollows
  refine ⟨s'.decoder, ?_, hfollows⟩
  unfold decodeOn
  rw [hsign]
  simp only [hmagnitude, hfollows.checkData hc, ← hlearnt, hvalue]
  rfl

theorem decode_eq (h : Follows bytes t e d) (hv : magnitude value ≤ 0xFFFFFFFF)
    (hc : (encode e contexts value).2.Completes bytes) :
    ∃ d', decode d contexts = (if magnitude value ≤ 0x7FFFFFFF then
        .ok (value, (encode e contexts value).1, d') else .error .overflow) ∧
      Follows bytes t (encode e contexts value).2 d' := by
  obtain ⟨d', hd, hfollows⟩ := decodeOn_eq h hv hc
  refine ⟨d', ?_, hfollows⟩
  rw [decode_eq_decodeOn, hd]
  split <;> rfl

/-- A decoder that is in step decodes the value that is encoded next. -/
theorem decode_encode (h : Follows bytes t e d) (hv : Representable value)
    (hc : (encode e contexts value).2.Completes bytes) :
    ∃ d', decode d contexts = .ok (value, (encode e contexts value).1, d') ∧
      Follows bytes t (encode e contexts value).2 d' := by
  have hle := representable_iff.mp hv
  obtain ⟨d', hd, hfollows⟩ := decode_eq h (hle.trans (by decide)) hc
  rw [if_pos hle] at hd
  exact ⟨d', hd, hfollows⟩

/-- What can be decoded is not too large. -/
theorem representable_of_decode (h : Follows bytes t e d) (hv : magnitude value ≤ 0xFFFFFFFF)
    (hc : (encode e contexts value).2.Completes bytes) {result : Value × Contexts × Decoder}
    (hd : decode d contexts = .ok result) : Representable value := by
  refine representable_iff.mpr (Nat.not_lt.mp fun hlarge => ?_)
  obtain ⟨d', herror, -⟩ := decode_eq h hv hc
  rw [if_neg (Nat.not_le.mpr hlarge), hd] at herror
  cases herror

end

end Integer

/-! ## Symbol numbers -/

namespace SymbolId

theorem reaches_encodeBits (e : Encoder) (contexts : Contexts) (id count previous : Nat) :
    e.Reaches (encodeBits e contexts id count previous).2 := by
  induction count generalizing e contexts previous with
  | zero => exact .refl e
  | succ count ih =>
    exact (Encoder.Reaches.encodeAt e contexts previous (id.testBit count)).trans (ih _ _ _)

theorem reaches_encode (e : Encoder) (contexts : Contexts) (length id : Nat) :
    e.Reaches (encode e contexts length id).2 := reaches_encodeBits ..

theorem encodeBits_succ (e : Encoder) (contexts : Contexts) (id count previous : Nat) :
    encodeBits e contexts id (count + 1) previous =
      encodeBits (e.encodeAt contexts previous (id.testBit count)).2
        (e.encodeAt contexts previous (id.testBit count)).1 id count
        (2 * previous + (id.testBit count).toNat) := rfl

theorem decodeBits_encodeBits {bytes t : List UInt8} {e : Encoder} {d : Decoder}
    (h : Follows bytes t e d) {contexts : Contexts} {id count previous : Nat}
    (hc : (encodeBits e contexts id count previous).2.Completes bytes) :
    ∃ d', decodeBits d contexts count previous = (previous * 2 ^ count + id % 2 ^ count,
        (encodeBits e contexts id count previous).1, d') ∧
      Follows bytes t (encodeBits e contexts id count previous).2 d' := by
  induction count generalizing e d contexts previous with
  | zero => exact ⟨d, by simp [decodeBits, encodeBits, Nat.mod_one], h⟩
  | succ count ih =>
    rw [encodeBits_succ] at hc ⊢
    have hready := (Encoder.Reaches.encodeAt e contexts previous (id.testBit count)).ready h.ready
    obtain ⟨d', hbit, h'⟩ := h.decodeAt contexts previous (id.testBit count)
      ((reaches_encodeBits ..).completes hready hc)
    obtain ⟨d'', hbits, h''⟩ := ih h' hc
    refine ⟨d'', ?_, h''⟩
    simp only [decodeBits, hbit, hbits, mod_two_pow_succ]
    rw [pow_succ]
    congr 1
    ring

/-- Decode a number of `length` bits, with the decoder that goes on behind it even if it has run out
of data. -/
def decodeOn (d : Decoder) (contexts : Contexts) (length : Nat) :
    Except DecodeError Nat × Contexts × Decoder :=
  let (id, contexts, d) := decodeBits d contexts length 1
  (d.checkData.map fun _ => id - 1 <<< length, contexts, d)

theorem decode_eq_decodeOn (d : Decoder) (contexts : Contexts) (length : Nat) :
    decode d contexts length =
      (decodeOn d contexts length).1.map (·, (decodeOn d contexts length).2) := by
  simp only [decode, decodeOn]
  cases (decodeBits d contexts length 1).2.2.checkData <;> rfl

section

variable {bytes t : List UInt8} {e : Encoder} {d : Decoder} (h : Follows bytes t e d)
  {contexts : Contexts} {length id : Nat} (hid : id < 2 ^ length)
  (hc : (encode e contexts length id).2.Completes bytes)
include h hid hc

/-- A decoder that is in step decodes the symbol number that is encoded next. -/
theorem decodeOn_encode :
    ∃ d', decodeOn d contexts length = (.ok id, (encode e contexts length id).1, d') ∧
      Follows bytes t (encode e contexts length id).2 d' := by
  obtain ⟨d', hbits, h'⟩ := decodeBits_encodeBits h hc
  refine ⟨d', ?_, h'⟩
  unfold decodeOn
  rw [hbits]
  simp only [h'.checkData hc]
  rw [Nat.mod_eq_of_lt hid, Nat.one_mul, Nat.one_shiftLeft, Nat.add_sub_cancel_left]
  rfl

theorem decode_encode :
    ∃ d', decode d contexts length = .ok (id, (encode e contexts length id).1, d') ∧
      Follows bytes t (encode e contexts length id).2 d' := by
  obtain ⟨d', hd, h'⟩ := decodeOn_encode h hid hc
  exact ⟨d', by rw [decode_eq_decodeOn, hd]; rfl, h'⟩

end

/-- The numbers of some symbols fit into as many bits as are used for them. -/
theorem lt_symbolCodeLength {symbols id : Nat} (h : id < symbols) :
    id < 2 ^ symbolCodeLength symbols := by
  unfold symbolCodeLength
  split
  · omega
  · have := Nat.lt_log2_self (n := symbols - 1)
    omega

theorem le_symbolCodeLength (symbols : Nat) : symbols ≤ 2 ^ symbolCodeLength symbols := by
  cases symbols with
  | zero => exact Nat.zero_le _
  | succ n => exact lt_symbolCodeLength (Nat.lt_succ_self n)

end SymbolId
end Bilevel.Mq

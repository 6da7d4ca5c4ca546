import Bilevel.Mq.Context
import Bilevel.Proofs.Mq.Interval

/-!
# Codes that complete an encoder

Every step of an encoder keeps the bounds of its registers. Read backwards, it keeps what it means
that a code contains the encoder. The code that is written at the end contains the last encoder,
and with it all earlier ones.

## Main results

* `Encoder.Reaches.completes` — a code that completes an encoder completes those before it.
* `Encoder.completes_flushed` — what is written at the end completes the last encoder.
-/

namespace Bilevel.Mq

open Code

namespace Encoder

/-- A code contains an encoder if it goes on from the bytes put out so far, but for a carry, and
if all numbers that start with it lie in the interval. What the code starts with, as far as it isn't
put out yet, must not leave the interval behind. -/
structure Contains (e : Encoder) (code : List UInt8) : Prop where
  continues : ∃ x, Carried e.code x ∧ x <:+ code
  below : (value code + 1) * 2 ^ (e.doublings + 31) ≤ (e.low + e.a) * 2 ^ (16 + bits code)
  above : ∀ p, p <:+ code → bits e.code < bits p →
    e.low * 2 ^ (16 + bits p) < (value p + 1) * 2 ^ (e.doublings + 31)
  clean : Clean code
  two_le : 2 ≤ code.length

/-- A smaller interval contains fewer codes. -/
theorem Contains.mono {e f : Encoder} {code : List UInt8} (h : f.Contains code)
    (hcode : f.code = e.code) (hfree : f.free = e.free) (hlow : e.low ≤ f.low)
    (hhigh : f.low + f.a ≤ e.low + e.a) : e.Contains code := by
  have hd : f.doublings = e.doublings := by unfold doublings; rw [hcode, hfree]
  refine ⟨hcode ▸ h.continues, ?_, fun p hp hb => ?_, h.clean, h.two_le⟩
  · exact hd ▸ h.below.trans (Nat.mul_le_mul_right _ hhigh)
  · have habove := h.above p hp (hcode ▸ hb)
    rw [hd] at habove
    exact (Nat.mul_le_mul_right _ hlow).trans_lt habove

/-! ## Doubling -/

/-- Double the interval some times without putting out a byte. -/
def shift (e : Encoder) (n : Nat) : Encoder :=
  { e with a := e.a * 2 ^ n, c := e.c * 2 ^ n, free := e.free - n }

@[simp] theorem code_shift (e : Encoder) (n : Nat) : (e.shift n).code = e.code := rfl

@[simp] theorem c_shift (e : Encoder) (n : Nat) : (e.shift n).c = e.c * 2 ^ n := rfl

@[simp] theorem a_shift (e : Encoder) (n : Nat) : (e.shift n).a = e.a * 2 ^ n := rfl

@[simp] theorem free_shift (e : Encoder) (n : Nat) : (e.shift n).free = e.free - n := rfl

section Shift

variable {e : Encoder} {n : Nat} (h : e.Bounded) (hn : n ≤ e.free)
include h hn

theorem low_shift : (e.shift n).low = e.low * 2 ^ n := by
  have hfree := h.free_le
  have hexp : 27 - (e.free - n) = 27 - e.free + n := by omega
  simp only [low, code_shift, c_shift, free_shift, hexp, pow_add]
  ring

theorem doublings_shift : (e.shift n).doublings = e.doublings + n := by
  have hfree := h.free_le
  simp only [doublings, code_shift, free_shift]
  omega

theorem bounded_shift : (e.shift n).Bounded := by
  have hscale : (e.c * 2 ^ n + e.a * 2 ^ n) * 2 ^ (e.free - n) = (e.c + e.a) * 2 ^ e.free := by
    rw [← Nat.add_mul, Nat.mul_assoc, ← pow_add, Nat.add_sub_cancel' hn]
  have hle := h.free_le
  refine ⟨Nat.mul_pos h.a_pos (Nat.two_pow_pos n), ?_, fun hs => ?_, ?_, h.fresh, ?_, h.clean⟩
  · simp only [shift]
    omega
  · have := h.free_le_of_started hs
    simp only [shift]
    omega
  · simp only [shift, hscale]
    exact h.room
  · intro b p hb hp
    simp only [shift, hscale]
    exact h.stuffed b p hb hp

theorem Contains.of_shift {code : List UInt8} (hc : (e.shift n).Contains code) :
    e.Contains code := by
  have hd := doublings_shift h hn
  have hl := low_shift h hn
  have hpos := Nat.two_pow_pos n
  refine ⟨hc.continues, ?_, fun p hp hb => ?_, hc.clean, hc.two_le⟩
  · have hbelow := hc.below
    rw [hd, hl, a_shift] at hbelow
    refine Nat.le_of_mul_le_mul_right ?_ hpos
    calc (value code + 1) * 2 ^ (e.doublings + 31) * 2 ^ n
        = (value code + 1) * 2 ^ (e.doublings + n + 31) := by ring
      _ ≤ (e.low * 2 ^ n + e.a * 2 ^ n) * 2 ^ (16 + bits code) := hbelow
      _ = (e.low + e.a) * 2 ^ (16 + bits code) * 2 ^ n := by ring
  · have habove := hc.above p hp hb
    rw [hd, hl] at habove
    refine Nat.lt_of_mul_lt_mul_right (a := 2 ^ n) ?_
    calc e.low * 2 ^ (16 + bits p) * 2 ^ n
        = e.low * 2 ^ n * 2 ^ (16 + bits p) := by ring
      _ < (value p + 1) * 2 ^ (e.doublings + n + 31) := habove
      _ = (value p + 1) * 2 ^ (e.doublings + 31) * 2 ^ n := by ring

end Shift

/-- Putting out a byte leaves the interval as it is. -/
theorem PutsOut.contains {e f : Encoder} {b : UInt8} {x code : List UInt8} (p : e.PutsOut b x f)
    (hf : e.free = 0) (hc : f.Contains code) : e.Contains code := by
  have hl := p.low_eq hf
  have hd := p.doublings_eq hf
  obtain ⟨y, hy, hyc⟩ := hc.continues
  rw [p.code_eq] at hy
  obtain ⟨b', hb'⟩ := hy.tail_eq
  have hxc : x <:+ code := (hb' ▸ List.suffix_cons b' x).trans hyc
  refine ⟨⟨x, p.carried, hxc⟩, ?_, fun q hq hbits => ?_, hc.clean, hc.two_le⟩
  · have hbelow := hc.below
    rwa [hl, hd, p.a_eq] at hbelow
  · by_cases hlater : bits f.code < bits q
    · have habove := hc.above q hq hlater
      rwa [hl, hd] at habove
    · -- `q` ends with the byte that is put out here, so it is more than the lower end
      have hqy : q = y := by
        have hby := hy.bits_eq
        rw [p.code_eq] at hlater
        have hsuf := suffix_of_bits_le hq hyc (by omega)
        rw [hb'] at hsuf ⊢
        rcases List.suffix_cons_iff.mp hsuf with heq | hsuf
        · exact heq
        · have := bits_mono hsuf
          have := p.carried.bits_eq
          omega
      have hv := hy.value_le
      have hby := hy.bits_eq
      have hr := room_le x
      have hval := p.value_eq
      have hlt := p.c_lt
      have hlow : e.low = value e.code * 2 ^ 27 + e.c := by simp [low, hf]
      have hexp : e.doublings + 31 = 27 - Code.room x + (16 + bits y) := by
        have hx := p.carried.bits_eq
        simp only [doublings, hf, hby, bits]
        omega
      rw [hqy, hexp, pow_add 2 (27 - Code.room x), ← Nat.mul_assoc]
      refine Nat.mul_lt_mul_of_pos_right ?_ (Nat.two_pow_pos _)
      rw [hlow, ← hval]
      calc value (b :: x) * 2 ^ (27 - Code.room x) + f.c
          < value (b :: x) * 2 ^ (27 - Code.room x) + 2 ^ (27 - Code.room x) := by omega
        _ = (value (b :: x) + 1) * 2 ^ (27 - Code.room x) := by ring
        _ ≤ (value y + 1) * 2 ^ (27 - Code.room x) := Nat.mul_le_mul_right _ (by omega)

theorem double_eq (e : Encoder) :
    e.double = if (e.shift 1).free = 0 then (e.shift 1).putByte else e.shift 1 := by
  simp only [double, shift, pow_one, Nat.mul_comm]

section Double

variable {e : Encoder} (h : e.Bounded) (hf : 0 < e.free)
include h hf

theorem doublings_double : e.double.doublings = e.doublings + 1 := by
  rw [double_eq]
  split
  · next h0 =>
    obtain ⟨b, x, p⟩ := putsOut_putByte (bounded_shift h hf) h0
    rw [p.doublings_eq h0, doublings_shift h hf]
  · exact doublings_shift h hf

theorem low_double : e.double.low = 2 * e.low := by
  have hl := low_shift h hf
  rw [double_eq]
  split
  · next h0 =>
    obtain ⟨b, x, p⟩ := putsOut_putByte (bounded_shift h hf) h0
    rw [p.low_eq h0, hl, pow_one, Nat.mul_comm]
  · rw [hl, pow_one, Nat.mul_comm]

theorem a_double : e.double.a = 2 * e.a := by
  rw [double_eq]
  split
  · next h0 =>
    obtain ⟨b, x, p⟩ := putsOut_putByte (bounded_shift h hf) h0
    rw [p.a_eq, a_shift, pow_one, Nat.mul_comm]
  · rw [a_shift, pow_one, Nat.mul_comm]

theorem free_double_pos : 0 < e.double.free := by
  rw [double_eq]
  split
  · next h0 =>
    obtain ⟨b, x, p⟩ := putsOut_putByte (bounded_shift h hf) h0
    have := seven_le_room x
    rw [p.free_eq]
    omega
  · omega

theorem bounded_double (ha : e.a ≤ 0x8000) : e.double.Bounded := by
  rw [double_eq]
  split
  · next h0 =>
    obtain ⟨b, x, p⟩ := putsOut_putByte (bounded_shift h hf) h0
    refine p.bounded (bounded_shift h hf) h0 ?_
    simp only [shift]
    omega
  · exact bounded_shift h hf

theorem Contains.of_double {code : List UInt8} (hc : e.double.Contains code) :
    e.Contains code := by
  apply Contains.of_shift h hf
  rw [double_eq] at hc
  split at hc
  · next h0 =>
    obtain ⟨b, x, p⟩ := putsOut_putByte (bounded_shift h hf) h0
    exact p.contains h0 hc
  · exact hc

end Double

/-- Doubling an interval until it is large enough gives one of the largest size at most. -/
theorem renormalized_size {a : Nat} (hpos : 0 < a) (hlt : a < 0x10000) :
    0x8000 ≤ a * 2 ^ (15 - a.log2) ∧ a * 2 ^ (15 - a.log2) < 0x10000 := by
  have hlog : a.log2 < 16 := (Nat.log2_lt hpos.ne').mpr hlt
  have hle := Nat.mul_le_mul_right (2 ^ (15 - a.log2)) (Nat.log2_self_le hpos.ne')
  have hgt := Nat.mul_lt_mul_of_pos_right (Nat.lt_log2_self (n := a)) (Nat.two_pow_pos (15 - a.log2))
  rw [← pow_add] at hle hgt
  rw [show a.log2 + (15 - a.log2) = 15 by omega] at hle
  rw [show a.log2 + 1 + (15 - a.log2) = 16 by omega] at hgt
  exact ⟨hle, hgt⟩

/-- What some doublings do. -/
structure Doubled (e : Encoder) (n : Nat) (f : Encoder) : Prop where
  bounded : f.Bounded
  free_pos : 0 < f.free
  a_eq : f.a = e.a * 2 ^ n
  low_eq : f.low = e.low * 2 ^ n
  doublings_eq : f.doublings = e.doublings + n
  contains : ∀ code, f.Contains code → e.Contains code

theorem doubled_doubleTimes {e : Encoder} (h : e.Bounded) (hf : 0 < e.free) (n : Nat)
    (ha : e.a * 2 ^ n ≤ 0x10000) : e.Doubled n (e.doubleTimes n) := by
  induction n generalizing e with
  | zero => exact ⟨h, hf, by simp [doubleTimes], by simp [doubleTimes], rfl, fun _ hc => hc⟩
  | succ n ih =>
    have hpow := Nat.one_le_two_pow (n := n)
    have hle : e.a * 2 ^ n ≤ 0x8000 := by rw [pow_succ, ← Nat.mul_assoc] at ha; omega
    have ha' : e.a ≤ 0x8000 := (Nat.le_mul_of_pos_right _ hpow).trans hle
    have hda := a_double h hf
    have d := ih (bounded_double h hf ha') (free_double_pos h hf) (by rw [hda]; linarith)
    refine ⟨d.bounded, d.free_pos, ?_, ?_, ?_, fun code hc => (d.contains code hc).of_double h hf⟩
    · rw [doubleTimes, d.a_eq, hda]
      ring
    · rw [doubleTimes, d.low_eq, low_double h hf]
      ring
    · rw [doubleTimes, d.doublings_eq, doublings_double h hf]
      omega

theorem renormalize_of_le {e : Encoder} (h : 0x8000 ≤ e.a) : e.renormalize = e := by
  have hlog : 15 ≤ e.a.log2 := (Nat.le_log2 (by omega)).mpr h
  rw [renormalize, Nat.sub_eq_zero_of_le hlog, doubleTimes]

/-- Restoring the size of an interval makes the encoder ready for the next decision. -/
theorem doubled_renormalize {e : Encoder} (h : e.Bounded) (hf : 0 < e.free) (ha : e.a < 0x10000) :
    e.Doubled (15 - e.a.log2) e.renormalize ∧ e.renormalize.Ready := by
  have hsize := renormalized_size h.a_pos ha
  have d := doubled_doubleTimes h hf (15 - e.a.log2) hsize.2.le
  exact ⟨d, d.bounded, d.free_pos, d.a_eq ▸ hsize.1, d.a_eq ▸ hsize.2⟩

end Encoder

/-! ## Decisions -/

namespace Context

/-- Whether an outcome takes the upper part of an interval of size `a`. Which part is that of the
more probable outcome depends on which part is larger. -/
def takesUpper (cx : Context) (a : Nat) (bit : Bool) : Bool :=
  (bit == cx.mps) != decide (a - cx.estimate.qe < cx.estimate.qe)

/-- What a context has learnt from an outcome in an interval of size `a`. -/
def after (cx : Context) (a : Nat) (bit : Bool) : Context :=
  if bit = cx.mps then if 0x8000 ≤ a - cx.estimate.qe then cx else cx.afterMps else cx.afterLps

end Context

namespace Encoder

/-- Go on to one of the two parts of the interval. -/
def narrow (e : Encoder) (upper : Bool) (qe : Nat) : Encoder :=
  if upper then { e with a := e.a - qe, c := e.c + qe } else { e with a := qe }

theorem encode_eq (e : Encoder) (cx : Context) (bit : Bool) : e.encode cx bit =
    (cx.after e.a bit, (e.narrow (cx.takesUpper e.a bit) cx.estimate.qe).renormalize) := by
  have hqe := cx.qe_le
  have hbit : bit = cx.mps ∨ bit = !cx.mps := by cases bit <;> cases cx.mps <;> simp
  unfold encode Context.after Context.takesUpper narrow
  by_cases hsmall : e.a - cx.estimate.qe < cx.estimate.qe
  · have h8 : ¬0x8000 ≤ e.a - cx.estimate.qe := by omega
    rcases hbit with rfl | rfl <;> simp [encodeMps, encodeLps, hsmall, h8]
  · rcases hbit with rfl | rfl
    · by_cases h8 : 0x8000 ≤ e.a - cx.estimate.qe
      · simp [encodeMps, hsmall, h8, renormalize_of_le]
      · simp [encodeMps, hsmall, h8]
    · simp [encodeLps, hsmall]

@[simp] theorem code_narrow (e : Encoder) (upper : Bool) (qe : Nat) :
    (e.narrow upper qe).code = e.code := by
  cases upper <;> rfl

@[simp] theorem free_narrow (e : Encoder) (upper : Bool) (qe : Nat) :
    (e.narrow upper qe).free = e.free := by
  cases upper <;> rfl

section Narrow

variable {e : Encoder} (upper : Bool) {qe : Nat} (hpos : 0 < qe) (hlt : qe < e.a)
include hpos hlt

theorem narrow_le : e.c ≤ (e.narrow upper qe).c ∧
    (e.narrow upper qe).c + (e.narrow upper qe).a ≤ e.c + e.a := by
  cases upper
  · simp only [narrow, Bool.false_eq_true, if_false]
    omega
  · simp only [narrow, if_true]
    omega

theorem a_narrow : 0 < (e.narrow upper qe).a ∧ (e.narrow upper qe).a < e.a := by
  cases upper
  · simp only [narrow, Bool.false_eq_true, if_false]
    omega
  · simp only [narrow, if_true]
    omega

theorem bounded_narrow (h : e.Bounded) : (e.narrow upper qe).Bounded := by
  have hle := (narrow_le upper hpos hlt).2
  have hmul := Nat.mul_le_mul_right (2 ^ e.free) hle
  refine ⟨(a_narrow upper hpos hlt).1, ?_, fun hs => ?_, ?_, fun hs => ?_, ?_, ?_⟩
  · rw [free_narrow]
    exact h.free_le
  · rw [free_narrow]
    exact h.free_le_of_started (by cases upper <;> exact hs)
  · rw [free_narrow]
    have hs : (e.narrow upper qe).started = e.started := by cases upper <;> rfl
    rw [hs]
    exact hmul.trans h.room
  · cases upper <;> exact h.fresh hs
  · intro b p hb hp
    rw [code_narrow] at hb
    have := h.stuffed b p hb hp
    rw [free_narrow]
    omega
  · rw [code_narrow]
    exact h.clean

theorem Contains.of_narrow {code : List UInt8} (hc : (e.narrow upper qe).Contains code) :
    e.Contains code := by
  have hle := narrow_le upper hpos hlt
  apply hc.mono (code_narrow e upper qe) (free_narrow e upper qe)
  · simp only [low, code_narrow, free_narrow]
    omega
  · simp only [low, code_narrow, free_narrow]
    omega

end Narrow

/-- One decision: the interval is narrowed and its size restored. -/
theorem ready_encode {e : Encoder} (h : e.Ready) (cx : Context) (bit : Bool) :
    (e.encode cx bit).2.Ready := by
  have hlt : cx.estimate.qe < e.a := by have := cx.qe_le; have := h.le_a; omega
  rw [encode_eq]
  refine (doubled_renormalize (bounded_narrow _ cx.qe_pos hlt h.toBounded) ?_ ?_).2
  · rw [free_narrow]
    exact h.free_pos
  · exact (a_narrow _ cx.qe_pos hlt).2.trans h.a_lt

/-- A code completes an encoder if its interval contains it, and if it has enough bits for all
decisions so far. -/
structure Completes (e : Encoder) (code : List UInt8) : Prop extends Contains e code where
  long : e.doublings + 3 ≤ bits code

theorem Doubled.completes {e f : Encoder} {n : Nat} {code : List UInt8} (d : e.Doubled n f)
    (hc : f.Completes code) : e.Completes code := by
  have hlong := hc.long
  rw [d.doublings_eq] at hlong
  exact ⟨d.contains code hc.toContains, by omega⟩

section Encode

variable {e : Encoder} (h : e.Ready) (cx : Context) (bit : Bool) {code : List UInt8}
include h

theorem qe_lt_a : cx.estimate.qe < e.a := by
  have := cx.qe_le
  have := h.le_a
  omega

theorem doubled_encode : ∃ n, (e.narrow (cx.takesUpper e.a bit) cx.estimate.qe).Doubled n
    (e.encode cx bit).2 := by
  rw [encode_eq]
  refine ⟨_, (doubled_renormalize (bounded_narrow _ cx.qe_pos (qe_lt_a h cx) h.toBounded) ?_ ?_).1⟩
  · rw [free_narrow]
    exact h.free_pos
  · exact (a_narrow _ cx.qe_pos (qe_lt_a h cx)).2.trans h.a_lt

variable {cx bit}

theorem Completes.of_renormalize (hc : (e.encode cx bit).2.Completes code) :
    (e.narrow (cx.takesUpper e.a bit) cx.estimate.qe).Completes code := by
  obtain ⟨n, d⟩ := doubled_encode h cx bit
  exact d.completes hc

theorem Completes.of_encode (hc : (e.encode cx bit).2.Completes code) : e.Completes code := by
  have hn := hc.of_renormalize h
  have hlong := hn.long
  unfold doublings at hlong
  rw [code_narrow, free_narrow] at hlong
  exact ⟨hn.toContains.of_narrow _ cx.qe_pos (qe_lt_a h cx), hlong⟩

end Encode

/-- An encoder comes from another one by decisions. -/
inductive Reaches : Encoder → Encoder → Prop
  | refl (e : Encoder) : Reaches e e
  | encode {e f : Encoder} (cx : Context) (bit : Bool) :
    Reaches (e.encode cx bit).2 f → Reaches e f

namespace Reaches

theorem trans {e f g : Encoder} (h : Reaches e f) (h' : Reaches f g) : Reaches e g := by
  induction h with
  | refl => exact h'
  | encode cx bit _ ih => exact .encode cx bit (ih h')

theorem encodeAt (e : Encoder) (contexts : Contexts) (i : Nat) (bit : Bool) :
    Reaches e (e.encodeAt contexts i bit).2 :=
  .encode (contexts.lookup i) bit (.refl _)

theorem ready {e f : Encoder} (h : Reaches e f) (he : e.Ready) : f.Ready := by
  induction h with
  | refl => exact he
  | encode cx bit _ ih => exact ih (ready_encode he cx bit)

theorem completes {e f : Encoder} (h : Reaches e f) (he : e.Ready) {code : List UInt8}
    (hc : f.Completes code) : e.Completes code := by
  induction h with
  | refl => exact hc
  | encode cx bit _ ih => exact (ih (ready_encode he cx bit) hc).of_encode he

end Reaches

/-! ## The end of a stream -/

/-- The bits that are set at the end leave the lower end in the interval. -/
theorem setBits_spec {e : Encoder} (h : 0x8000 ≤ e.a) :
    e.c ≤ e.setBits.c ∧ e.setBits.c + 1 ≤ e.c + e.a ∧ 0x8000 ∣ e.setBits.c + 1 := by
  simp only [setBits]
  split <;> omega

/-- The same lower end, but another size of the interval. -/
def withSize (e : Encoder) (a : Nat) : Encoder := { e with a }

@[simp] theorem code_withSize (e : Encoder) (a : Nat) : (e.withSize a).code = e.code := rfl

/-- The lower end after the last bits are set, alone. -/
theorem bounded_setBits {e : Encoder} (h : e.Ready) : (e.setBits.withSize 1).Bounded := by
  obtain ⟨-, hle, -⟩ := setBits_spec h.le_a
  have hmul := Nat.mul_le_mul_right (2 ^ e.free) hle
  refine ⟨Nat.one_pos, h.free_le, h.free_le_of_started, hmul.trans h.room, h.fresh, ?_, h.clean⟩
  intro b p hb hp
  exact (Nat.add_le_add_left hmul _).trans (h.stuffed b p hb hp)

/-- Put out a byte as soon as it is complete. -/
def putRest (e : Encoder) : Encoder := (e.shift e.free).putByte

/-- The encoder after the last two bytes. -/
def flushed (e : Encoder) : Encoder := (e.setBits.withSize 1).putRest.putRest

theorem started_putByte (e : Encoder) : e.putByte.started = true := by
  rw [putByte_eq, emitNext]
  split <;> rfl

theorem putRest_withSize (e : Encoder) (a : Nat) : (e.withSize a).putRest =
    (putByte { e with c := e.c <<< e.free }).withSize (a * 2 ^ e.free) := by
  simp only [putRest, shift, withSize, Nat.shiftLeft_eq]
  unfold putByte
  dsimp only
  split_ifs <;> rfl

/-- The two last bytes and the marker. -/
theorem finish_eq (e : Encoder) : e.finish.toList = bytes e.flushed.code := by
  let f : Encoder := putByte { e.setBits with c := e.setBits.c <<< e.setBits.free }
  let g : Encoder := putByte { f with c := f.c <<< f.free }
  have hflushed : e.flushed.code = g.code := by
    rw [flushed, putRest_withSize, putRest_withSize, code_withSize]
  have hfinish : e.finish =
      (if g.last = 0xFF then g.settled else g.settled.push 0xFF).push 0xAC := rfl
  have hs : g.started = true := started_putByte _
  rw [hflushed, hfinish, bytes, code_of_started hs, room_cons]
  by_cases hlast : g.last = 0xFF <;> simp [hlast, settled, hs]

/-- A byte takes whole multiples of its unit from the register. -/
theorem PutsOut.dvd {e f : Encoder} {b : UInt8} {x : List UInt8} (p : e.PutsOut b x f) {k : Nat}
    (hk : k ≤ 27 - Code.room x) (h : 2 ^ k ∣ e.c + e.a) : 2 ^ k ∣ f.c + f.a := by
  have hbyte : 2 ^ k ∣ value (b :: x) * 2 ^ (27 - Code.room x) :=
    Dvd.dvd.mul_left (pow_dvd_pow 2 hk) _
  have hcode : 2 ^ k ∣ value e.code * 2 ^ 27 := Dvd.dvd.mul_left (pow_dvd_pow 2 (by omega)) _
  have hsum : value (b :: x) * 2 ^ (27 - Code.room x) + (f.c + f.a) =
      value e.code * 2 ^ 27 + (e.c + e.a) := by
    have := p.value_eq
    rw [p.a_eq]
    omega
  exact (Nat.dvd_add_right hbyte).mp (hsum ▸ Nat.dvd_add hcode h)

/-- If the bits that a last byte leaves in the register are filled up by the interval, the number
of the bytes lies in it. -/
theorem PutsOut.contains_code {e f : Encoder} {b : UInt8} {x : List UInt8} (p : e.PutsOut b x f)
    (hpos : 0 < e.a) (h : 2 ^ 20 ∣ e.c + e.a) (hx : x ≠ []) : f.Contains f.code := by
  have hr := seven_le_room x
  have hr' := room_le x
  have hdvd := p.dvd le_rfl ((pow_dvd_pow 2 (by omega)).trans h)
  have hunit : 2 ^ (27 - Code.room x) ≤ f.c + f.a :=
    Nat.le_of_dvd (by rw [p.a_eq]; omega) hdvd
  refine ⟨⟨_, .same _, List.suffix_rfl⟩, ?_, fun q hq hbits => ?_, p.code_eq ▸ p.clean, ?_⟩
  · have hexp : f.doublings + 31 = 27 - Code.room x + (16 + bits f.code) := by
      simp only [doublings, p.free_eq, p.code_eq, bits]
      omega
    rw [hexp, pow_add, ← Nat.mul_assoc]
    refine Nat.mul_le_mul_right _ ?_
    simp only [low, p.free_eq]
    linarith
  · exact absurd (bits_mono hq) (Nat.not_le.mpr hbits)
  · rw [p.code_eq]
    have := List.length_pos_of_ne_nil hx
    simp only [List.length_cons]
    omega

theorem exists_putsOut_putRest {e : Encoder} (h : e.Bounded) :
    ∃ b x, (e.shift e.free).PutsOut b x e.putRest :=
  putsOut_putByte (bounded_shift h le_rfl) (Nat.sub_self _)

theorem bounded_putRest {e : Encoder} (h : e.Bounded) (ha : e.a * 2 ^ e.free ≤ 0x10000) :
    e.putRest.Bounded := by
  obtain ⟨b, x, p⟩ := exists_putsOut_putRest h
  exact p.bounded (bounded_shift h le_rfl) (Nat.sub_self _) ha

/-- The first of the last two bytes leaves an encoder for the second. -/
theorem bounded_putRest_setBits {e : Encoder} (h : e.Ready) :
    (e.setBits.withSize 1).putRest.Bounded := by
  have hpow : 2 ^ e.free ≤ 2 ^ 12 := Nat.pow_le_pow_right (by decide) h.free_le
  have ha : (e.setBits.withSize 1).a * 2 ^ (e.setBits.withSize 1).free = 2 ^ e.free := Nat.one_mul _
  exact bounded_putRest (bounded_setBits h) (ha.trans_le (by omega))

theorem Contains.of_putRest {e : Encoder} (h : e.Bounded) {code : List UInt8}
    (hc : e.putRest.Contains code) : e.Contains code := by
  obtain ⟨b, x, p⟩ := exists_putsOut_putRest h
  exact Contains.of_shift h le_rfl (p.contains (Nat.sub_self _) hc)

/-- What is put out at the end lies in the interval: the bits that no longer find room in it are
ones. -/
theorem contains_flushed {e : Encoder} (h : e.Ready) : e.Contains e.flushed.code := by
  obtain ⟨hge, hle, hones⟩ := setBits_spec h.le_a
  have hb := bounded_setBits h
  have hb' := bounded_putRest_setBits h
  obtain ⟨b, x, p⟩ := exists_putsOut_putRest hb
  obtain ⟨b', x', p'⟩ := exists_putsOut_putRest hb'
  have hr := seven_le_room x
  have hr' := room_le x
  -- fifteen ones are in the register, and at least seven more doublings follow
  have hdvd : 2 ^ 15 ∣ (e.setBits.withSize 1).putRest.c + (e.setBits.withSize 1).putRest.a := by
    refine p.dvd (by omega) ?_
    rw [c_shift, a_shift, ← Nat.add_mul]
    exact Dvd.dvd.mul_right hones _
  have hx' : x' ≠ [] := by
    obtain ⟨c, hc⟩ := (p.code_eq ▸ p'.carried).tail_eq
    rw [hc]
    exact List.cons_ne_nil _ _
  have hlast : e.flushed.Contains e.flushed.code := by
    refine p'.contains_code (bounded_shift hb' le_rfl).a_pos ?_ hx'
    rw [c_shift, a_shift, ← Nat.add_mul, p.free_eq]
    refine (pow_dvd_pow 2 (show 20 ≤ 15 + Code.room x by omega)).trans ?_
    rw [pow_add]
    exact Nat.mul_dvd_mul_right hdvd _
  refine ((hlast.of_putRest hb').of_putRest hb).mono rfl rfl (Nat.add_le_add_left hge _) ?_
  rw [low, low, Nat.add_assoc, Nat.add_assoc]
  exact Nat.add_le_add_left hle _

theorem doublings_putRest {e : Encoder} (h : e.Bounded) :
    e.putRest.doublings = e.doublings + e.free := by
  obtain ⟨b, x, p⟩ := exists_putsOut_putRest h
  rw [p.doublings_eq (Nat.sub_self _), doublings_shift h le_rfl]

/-- The last two bytes have room for what was put in the register, and some more. -/
theorem doublings_lt_flushed {e : Encoder} (h : e.Ready) :
    e.doublings + 3 ≤ bits e.flushed.code := by
  have hb := bounded_setBits h
  have hb' := bounded_putRest_setBits h
  obtain ⟨b, x, p⟩ := exists_putsOut_putRest hb
  obtain ⟨b', x', p'⟩ := exists_putsOut_putRest hb'
  have hpos := h.free_pos
  have hd := doublings_putRest hb
  have hd' := doublings_putRest hb'
  have hstart : (e.setBits.withSize 1).doublings = e.doublings := rfl
  have hfree : (e.setBits.withSize 1).free = e.free := rfl
  have hsum : e.flushed.doublings = bits e.flushed.code + 12 - e.flushed.free := rfl
  have hr := seven_le_room x
  have hr' := seven_le_room x'
  have hf := p.free_eq
  have hf' : e.flushed.free = Code.room x' := p'.free_eq
  have hle := room_le x'
  unfold flushed at *
  omega

/-- What is written at the end completes the last encoder. -/
theorem completes_flushed {e : Encoder} (h : e.Ready) : e.Completes e.flushed.code :=
  ⟨contains_flushed h, doublings_lt_flushed h⟩

end Encoder
end Bilevel.Mq

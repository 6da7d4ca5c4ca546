import Bilevel.Proofs.Mq.Code
import Mathlib.Tactic.Linarith

/-!
# The interval of an encoder

The bytes that an encoder has put out, with its register behind them, are one number: the lower end
of its interval. Narrowing and doubling the interval do to this number what they do to an interval
of numbers; putting out a byte moves bits from the register to the bytes and leaves it unchanged.

A code *completes* an encoder if the number that it stands for, and everything that starts like it,
lies in the interval of the encoder. A code that completes an encoder completes it before its last
steps too, so the code that is finally written completes the encoder at every earlier time.
-/

namespace Bilevel.Mq

open Code

namespace Encoder

/-- The bytes put out so far, the last one first, of which a carry may still reach the last. -/
def code (e : Encoder) : List UInt8 := if e.started then e.last :: e.out.toList.reverse else []

/-- The number of doublings of the interval so far. -/
def doublings (e : Encoder) : Nat := bits e.code + 12 - e.free

/-- The lower end of the interval, with the bytes put out so far. -/
def low (e : Encoder) : Nat := value e.code * 2 ^ (27 - e.free) + e.c

/-- What holds of the registers at all times. -/
structure Bounded (e : Encoder) : Prop where
  a_pos : 0 < e.a
  free_le : e.free ≤ 12
  free_le_of_started : e.started = true → e.free ≤ 8
  room : (e.c + e.a) * 2 ^ e.free ≤ if e.started then 0x9000000 else 0x8000000
  fresh : e.started = false → e.last = 0 ∧ e.out = #[]
  stuffed : ∀ b p, e.code = b :: p → Code.room p = 7 →
    b.toNat * 0x8000000 + (e.c + e.a) * 2 ^ e.free ≤ 0x90 * 0x8000000
  clean : Clean e.code

/-- Between two decisions. -/
structure Ready (e : Encoder) : Prop extends Bounded e where
  free_pos : 0 < e.free
  le_a : 0x8000 ≤ e.a
  a_lt : e.a < 0x10000

theorem code_of_fresh {e : Encoder} (h : e.started = false) : e.code = [] := by
  simp [code, h]

theorem code_of_started {e : Encoder} (h : e.started = true) :
    e.code = e.last :: e.out.toList.reverse := by
  simp [code, h]

theorem start_ready : start.Ready where
  a_pos := by decide
  free_le := by decide
  free_le_of_started := by decide
  room := by decide
  fresh := by decide
  stuffed b p h := by simp [code, start] at h
  clean := by simp [code, start, Clean]
  free_pos := by decide
  le_a := by decide
  a_lt := by decide

@[simp] theorem start_doublings : start.doublings = 0 := by
  simp [doublings, code, start, bits]

theorem doublings_add_free {e : Encoder} (h : e.Bounded) :
    e.doublings + e.free = bits e.code + 12 := by
  have := h.free_le
  unfold doublings
  omega

/-! ## Putting out a byte -/

/-- The last byte and the register after the carry, if there is one. Behind a byte of ones the carry
stays in the register. -/
def carry (e : Encoder) : Encoder :=
  if e.last = 0xFF ∨ e.c < 0x8000000 then e
  else { e with last := e.last + 1, c := e.c % 0x8000000 }

/-- Put out a byte into which no carry goes any more. -/
def emitNext (e : Encoder) : Encoder := if e.last = 0xFF then e.emitStuffed else e.emit

theorem putByte_eq (e : Encoder) : e.putByte = e.carry.emitNext := by
  unfold putByte carry emitNext
  by_cases hlast : e.last = 0xFF
  · simp [hlast]
  · by_cases hc : e.c < 0x8000000
    · simp [hlast, hc]
    · by_cases hones : e.last + 1 = 0xFF
      · simp [hlast, hc, hones]
      · -- the carry bit doesn't fit into the new byte anyway
        have hb : UInt8.ofNat (e.c >>> 19) = UInt8.ofNat ((e.c % 0x8000000) >>> 19) := by
          apply UInt8.toNat_inj.mp
          simp only [Nat.shiftRight_eq_div_pow, UInt8.toNat_ofNat']
          omega
        have hm : e.c % 0x80000 = e.c % 0x8000000 % 0x80000 := by omega
        simp only [hlast, hc, hones, false_or, if_false]
        simp only [emit, settled, hb, hm]

theorem room_code {e : Encoder} (h : e.Bounded) :
    Code.room e.code = if e.last = 0xFF then 7 else 8 := by
  cases hs : e.started with
  | true => rw [code_of_started hs, room_cons]
  | false =>
    rw [code_of_fresh hs, (h.fresh hs).1]
    rfl

theorem c_lt {e : Encoder} (h : e.Bounded) (hf : e.free = 0) :
    e.c < 0x9000000 ∧ (e.started = false → e.c < 0x8000000) := by
  have hroom := h.room
  have ha := h.a_pos
  rw [hf, pow_zero, mul_one] at hroom
  cases hs : e.started <;> simp only [hs] at hroom ⊢ <;> simp at hroom ⊢ <;> omega

/-- A carry goes from the register into the last byte. -/
structure CarriesTo (e f : Encoder) : Prop where
  carried : Carried e.code f.code
  value_eq : value f.code * 2 ^ 27 + f.c = value e.code * 2 ^ 27 + e.c
  clean : Clean f.code
  room_eq : Code.room f.code = if f.last = 0xFF then 7 else 8
  c_le : f.c ≤ e.c
  c_lt : f.last ≠ 0xFF → f.c < 0x8000000
  a_eq : f.a = e.a
  fresh : f.started = false → f.out = #[]

theorem carriesTo_carry {e : Encoder} (h : e.Bounded) (hf : e.free = 0) : e.CarriesTo e.carry := by
  by_cases hstay : e.last = 0xFF ∨ e.c < 0x8000000
  · have he : e.carry = e := if_pos hstay
    rw [he]
    exact ⟨.same _, rfl, h.clean, room_code h, le_rfl, fun hl => hstay.resolve_left hl, rfl,
      fun hs => (h.fresh hs).2⟩
  · have he : e.carry = { e with last := e.last + 1, c := e.c % 0x8000000 } := if_neg hstay
    obtain ⟨hlast, hc⟩ := not_or.mp hstay
    have hs : e.started = true := by
      cases hs : e.started with
      | true => rfl
      | false => exact absurd ((c_lt h hf).2 hs) hc
    have hcode := code_of_started hs
    have hcode' : e.carry.code = (e.last + 1) :: e.out.toList.reverse := by
      rw [he]
      exact code_of_started hs
    have hsucc := Carried.toNat_succ hlast
    refine ⟨?_, ?_, ?_, ?_, ?_, fun _ => ?_, by rw [he], fun hs' => ?_⟩
    · rw [hcode, hcode']
      exact .carry _ _ hlast
    · have hlt := (c_lt h hf).1
      rw [hcode, hcode', he]
      simp only [value, hsucc]
      omega
    · rw [hcode']
      refine ⟨fun h7 => ?_, (hcode ▸ h.clean).2⟩
      have hstuffed := h.stuffed _ _ hcode h7
      have ha := h.a_pos
      rw [hf] at hstuffed
      omega
    · rw [hcode', room_cons, he]
    · rw [he]
      exact Nat.mod_le _ _
    · rw [he]
      exact Nat.mod_lt _ (by decide)
    · rw [he, hs] at hs'
      exact absurd hs' (by decide)

/-- A new last byte `b`, behind the bytes `x`, takes its bits from the register. -/
structure PutsOut (e : Encoder) (b : UInt8) (x : List UInt8) (f : Encoder) : Prop where
  code_eq : f.code = b :: x
  carried : Carried e.code x
  clean : Clean (b :: x)
  free_eq : f.free = Code.room x
  a_eq : f.a = e.a
  started : f.started = true
  c_lt : f.c < 2 ^ (27 - Code.room x)
  value_eq : value (b :: x) * 2 ^ (27 - Code.room x) + f.c = value e.code * 2 ^ 27 + e.c
  stuffed : Code.room x = 7 → b.toNat * 0x100000 + f.c ≤ e.c

theorem putsOut_putByte {e : Encoder} (h : e.Bounded) (hf : e.free = 0) :
    ∃ b x, e.PutsOut b x e.putByte := by
  have hc := carriesTo_carry h hf
  have hlt := (c_lt h hf).1
  have hle := hc.c_le
  have hval := hc.value_eq
  rw [putByte_eq]
  by_cases hlast : e.carry.last = 0xFF
  · have hr : Code.room e.carry.code = 7 := by rw [hc.room_eq, if_pos hlast]
    have hput : e.carry.emitNext = e.carry.emitStuffed := if_pos hlast
    have hs : e.carry.started = true := by
      cases hs : e.carry.started with
      | true => rfl
      | false => rw [code_of_fresh hs] at hr; exact absurd hr (by decide)
    have hb : (UInt8.ofNat (e.carry.c >>> 20)).toNat = e.carry.c / 0x100000 := by
      rw [Nat.shiftRight_eq_div_pow, UInt8.toNat_ofNat']
      omega
    rw [hput]
    refine ⟨UInt8.ofNat (e.carry.c >>> 20), e.carry.code, ?_, hc.carried,
      ⟨fun _ => by omega, hc.clean⟩, hr.symm, hc.a_eq, rfl, ?_, ?_, fun _ => ?_⟩
    · simp [emitStuffed, code, settled, hs]
    · simp only [emitStuffed, hr, Nat.reduceSub, Nat.reducePow]
      omega
    · have hdiv := Nat.div_add_mod e.carry.c 0x100000
      simp only [emitStuffed, hr, value, hb, Nat.reduceSub, Nat.reducePow] at hval ⊢
      linarith
    · simp only [emitStuffed, hb]
      omega
  · have hr : Code.room e.carry.code = 8 := by rw [hc.room_eq, if_neg hlast]
    have hput : e.carry.emitNext = e.carry.emit := if_neg hlast
    have hlt' := hc.c_lt hlast
    have hb : (UInt8.ofNat (e.carry.c >>> 19)).toNat = e.carry.c / 0x80000 := by
      rw [Nat.shiftRight_eq_div_pow, UInt8.toNat_ofNat']
      omega
    rw [hput]
    refine ⟨UInt8.ofNat (e.carry.c >>> 19), e.carry.code, ?_, hc.carried,
      ⟨fun h7 => by omega, hc.clean⟩, hr.symm, hc.a_eq, rfl, ?_, ?_, fun h7 => by omega⟩
    · cases hs : e.carry.started with
      | true => simp [emit, code, settled, hs]
      | false => simp [emit, code, settled, hs, hc.fresh hs]
    · simp only [emit, hr, Nat.reduceSub, Nat.reducePow]
      omega
    · have hdiv := Nat.div_add_mod e.carry.c 0x80000
      simp only [emit, hr, value, hb, Nat.reduceSub, Nat.reducePow] at hval ⊢
      linarith

theorem PutsOut.bounded {e f : Encoder} {b : UInt8} {x : List UInt8} (p : e.PutsOut b x f)
    (h : e.Bounded) (hf : e.free = 0) (ha : e.a ≤ 0x10000) : f.Bounded := by
  have hc := p.c_lt
  have hroom := h.room
  rw [hf, pow_zero, mul_one] at hroom
  have hroom' : e.c + e.a ≤ 0x9000000 := by split at hroom <;> omega
  refine ⟨?_, ?_, fun _ => ?_, ?_, fun hs => ?_, ?_, ?_⟩
  · rw [p.a_eq]
    exact h.a_pos
  · have := room_le x
    rw [p.free_eq]
    omega
  · rw [p.free_eq]
    exact room_le x
  · rw [p.started, p.free_eq, p.a_eq]
    rcases room_eq x with hr | hr <;>
      simp only [hr, Nat.reduceSub, Nat.reducePow, if_true] at hc ⊢ <;> omega
  · rw [p.started] at hs
    exact absurd hs (by decide)
  · intro b' x' he h7
    rw [p.code_eq] at he
    obtain ⟨rfl, rfl⟩ := List.cons.inj he
    have hle := p.stuffed h7
    simp only [p.free_eq, p.a_eq, h7, Nat.reducePow, Nat.reduceMul]
    linarith
  · rw [p.code_eq]
    exact p.clean

theorem PutsOut.low_eq {e f : Encoder} {b : UInt8} {x : List UInt8} (p : e.PutsOut b x f)
    (hf : e.free = 0) : f.low = e.low := by
  unfold low
  rw [p.code_eq, p.free_eq, p.value_eq, hf]

theorem PutsOut.doublings_eq {e f : Encoder} {b : UInt8} {x : List UInt8} (p : e.PutsOut b x f)
    (hf : e.free = 0) : f.doublings = e.doublings := by
  unfold doublings
  rw [p.code_eq, p.free_eq, hf, bits, p.carried.bits_eq]
  omega

end Encoder
end Bilevel.Mq

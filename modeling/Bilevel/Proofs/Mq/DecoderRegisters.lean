import Bilevel.Proofs.Mq.Decisions
import Bilevel.Proofs.Mq.Exhaustion
import Bilevel.Proofs.Mq.Registers

/-!
# Decoding in registers

The numbers of a decoder can be kept in registers. A difference that would be below zero has no
result then, and neither has a renormalization that takes more than fifteen shifts. Both never
happen, whatever the data: between two decisions the size of the interval has its highest bit set and
takes sixteen bits, every estimate is smaller, and there are always bits ahead when one is used.

The coded number itself may be far outside the interval, so bits of it may be shifted out, and taking
up a byte may wrap around.

## Main definitions

* `Decoder.Machine` — a decoder in registers.

## Main results

* `Decoder.Machine.exists_decode?` — one decision needs no more room than there is.
* `Decoder.Machine.exists_decodeAll?` — nor do decisions one after another.
-/

namespace Bilevel.Mq

namespace Decoder

/-- A decoder whose numbers are kept in registers. -/
structure Machine where
  data : Bytes
  position : Nat
  c : Register
  a : Register
  ahead : Register
  synthetic : Nat
  deriving DecidableEq

namespace Machine

open Register

def toDecoder (m : Machine) : Decoder :=
  ⟨m.data, m.position, m.c.toNat, m.a.toNat, m.ahead.toNat, m.synthetic⟩

def byteAt (m : Machine) (position : Nat) : UInt8 := m.data.getD position 0xFF

/-- Take up the next byte. -/
def takeByte (m : Machine) : Machine :=
  if m.byteAt m.position = 0xFF then
    if 0x8F < m.byteAt (m.position + 1) then
      { m with synthetic := m.synthetic + 1, ahead := 8 }
    else
      { m with
        position := m.position + 1
        c := m.c + 0xFE00 - (m.byteAt (m.position + 1)).toUInt32 <<< (9 : Register)
        ahead := 7 }
  else
    { m with
      position := m.position + 1
      c := m.c + 0xFF00 - (m.byteAt (m.position + 1)).toUInt32 <<< (8 : Register)
      ahead := 8 }

/-- A decoder at the start of its data. -/
def ofBytes? (data : Bytes) : Option Machine := do
  let first : Machine := ⟨data, 0, 0, 0, 0, 0⟩
  let m := { first with c := ((first.byteAt 0).toUInt32 ^^^ 0xFF) <<< 16 }.takeByte
  return { m with c := m.c <<< 7, ahead := ← sub? m.ahead 7, a := 0x8000 }

/-- Double the interval. -/
def double? (m : Machine) : Option Machine := do
  let m := if m.ahead = 0 then m.takeByte else m
  return { m with a := m.a <<< 1, c := m.c <<< 1, ahead := ← sub? m.ahead 1 }

/-- Double the interval until it is large enough, at most as often as `shifts` says. -/
def renormalize? (m : Machine) : (shifts : Nat) → Option Machine
  | 0 => none
  | shifts + 1 => do
    let m ← m.double?
    if m.a.large then return m else m.renormalize? shifts

/-- Go on to the lower part of the interval, of the size `qe`. The upper one has the size `a`. -/
def lower? (m : Machine) (a qe : Register) : Option Machine := do
  let upper ← shift? a 16
  return { m with c := ← sub? m.c upper, a := qe }

/-- Decode one decision with a context of two numbers. -/
def decode? (m : Machine) (cx : Context.Raw) : Option (Nat × Context.Raw × Machine) := do
  let qe := UInt32.ofNat (← cx.estimate?).qe
  let a ← sub? m.a qe
  if m.c >>> 16 < a then
    if a.large then return (cx.mps, cx, { m with a })
    else if a < qe then return (← cx.lps?, ← cx.afterLps?, ← { m with a }.renormalize? 15)
    else return (cx.mps, ← cx.afterMps?, ← { m with a }.renormalize? 15)
  else
    let m ← m.lower? a qe
    if a < qe then return (cx.mps, ← cx.afterMps?, ← m.renormalize? 15)
    else return (← cx.lps?, ← cx.afterLps?, ← m.renormalize? 15)

/-- Decode one decision after the other, each in the context with the given number. -/
def decodeAll? (m : Machine) (contexts : Array Context.Raw) :
    List Nat → Option (List Nat × Array Context.Raw × Machine)
  | [] => some ([], contexts, m)
  | i :: is => do
    let (bit, cx, m) ← m.decode? (contexts.getD i {})
    let (bits, contexts, m) ← m.decodeAll? (contexts.setIfInBounds i cx) is
    return (bit :: bits, contexts, m)

variable {m : Machine}

/-! ## Taking up bytes -/

/-- A register wraps around as a number does that is taken modulo 2 ^ 32. -/
theorem toNat_take (c k : Register) (byte : UInt8) {n : Register} (h : n.toNat ≤ 9) :
    (c + k - byte.toUInt32 <<< n).toNat =
      (c.toNat + k.toNat + 0x100000000 - 2 ^ n.toNat * byte.toNat) % 0x100000000 := by
  have hpow : 2 ^ n.toNat ≤ 2 ^ 9 := Nat.pow_le_pow_right (by decide) h
  have hbyte : 2 ^ n.toNat * byte.toNat ≤ 2 ^ 9 * 0xFF :=
    Nat.mul_le_mul hpow (Nat.le_of_lt_succ byte.toNat_lt)
  have hshift : (byte.toUInt32 <<< n).toNat = 2 ^ n.toNat * byte.toNat := by
    rw [toNat_shiftLeft _ rfl (by omega), UInt8.toNat_toUInt32, Nat.mod_eq_of_lt (by omega)]
  rw [UInt32.toNat_sub, UInt32.toNat_add, hshift]
  omega

theorem toDecoder_takeByte (m : Machine) : m.takeByte.toDecoder = m.toDecoder.takeByte := by
  have hones (i : Nat) : m.toDecoder.byteAt i = 0xFF ↔ m.byteAt i = 0xFF :=
    UInt8.toNat_inj (b := 0xFF)
  have hmark (i : Nat) : 0x8F < m.toDecoder.byteAt i ↔ 0x8F < m.byteAt i :=
    (UInt8.lt_iff_toNat_lt (a := 0x8F)).symm
  unfold takeByte Decoder.takeByte
  simp only [show m.toDecoder.position = m.position from rfl, hones, hmark]
  split
  · split
    · rfl
    · simp only [toDecoder, toNat_take _ _ _ (show (9 : Register).toNat ≤ 9 by decide)]
      rfl
  · simp only [toDecoder, toNat_take _ _ _ (show (8 : Register).toNat ≤ 9 by decide)]
    rfl

/-! ## Doubling -/

theorem takeByte_spec (m : Machine) : m.takeByte.a = m.a ∧ 7 ≤ m.takeByte.ahead.toNat := by
  unfold takeByte
  split
  · split <;> exact ⟨rfl, Nat.le_add_left 7 _⟩
  · exact ⟨rfl, Nat.le_add_left 7 _⟩

/-- Bytes are taken up when there are no bits ahead. -/
theorem exists_double? (ha : m.a.toNat < 0x8000) :
    ∃ m', m.double? = some m' ∧ m'.toDecoder = m.toDecoder.double ∧
      m'.a.toNat = 2 * m.a.toNat := by
  obtain ⟨m₁, hm, hd, hda, hpos⟩ : ∃ m₁, (if m.ahead = 0 then m.takeByte else m) = m₁ ∧
      m₁.toDecoder = (if m.toDecoder.ahead = 0 then m.toDecoder.takeByte else m.toDecoder) ∧
      m₁.a = m.a ∧ 0 < m₁.ahead.toNat := by
    have hzero : m.toDecoder.ahead = 0 ↔ m.ahead = 0 := UInt32.toNat_inj (b := 0)
    by_cases h : m.ahead = 0
    · refine ⟨m.takeByte, if_pos h, ?_, m.takeByte_spec.1,
        Nat.lt_of_lt_of_le (by decide) m.takeByte_spec.2⟩
      rw [if_pos (hzero.mpr h), toDecoder_takeByte]
    · exact ⟨m, if_neg h, (if_neg (mt hzero.mp h)).symm, rfl,
        Nat.pos_of_ne_zero (mt hzero.mp h)⟩
  obtain ⟨ahead, hsub, hahead⟩ := exists_sub? (x := m₁.ahead) (y := 1) hpos
  have hshift (x : Register) : (x <<< 1).toNat = 2 * x.toNat % 0x100000000 :=
    toNat_shiftLeft x (k := 1) rfl (by decide)
  have hdouble : (m.a <<< 1).toNat = 2 * m.a.toNat := by
    rw [hshift, Nat.mod_eq_of_lt (by omega)]
  refine ⟨{ m₁ with a := m.a <<< 1, c := m₁.c <<< 1, ahead }, ?_, ?_, hdouble⟩
  · simp only [double?, hm, hsub, hda]
    rfl
  · rw [Decoder.double, ← hd]
    simp only [toDecoder, hshift m₁.c, hdouble, hahead, hda]
    rfl

/-- An interval that gets large enough by `n` doublings is doubled as often. -/
theorem exists_renormalize? {n shifts : Nat} (hn : 0 < n) (hshifts : n ≤ shifts)
    (hlarge : LargeAfter m.a.toNat n) :
    ∃ m', m.renormalize? shifts = some m' ∧ m'.toDecoder = m.toDecoder.doubleTimes n := by
  -- on the doublings that are left, since the loop itself doesn't count them
  induction n generalizing m shifts with
  | zero => omega
  | succ n ih =>
    obtain ⟨shifts, rfl⟩ : ∃ k, shifts = k + 1 := ⟨shifts - 1, by omega⟩
    obtain ⟨ha, hrest⟩ := hlarge.double
    obtain ⟨m', hdouble, hd, hda⟩ := exists_double? ha
    rw [renormalize?, hdouble]
    dsimp only [Option.bind_eq_bind, Option.bind_some]
    rw [← hda] at hrest
    rw [Decoder.doubleTimes, ← hd]
    by_cases hn : n = 0
    · rw [if_pos (hrest.large_iff.mpr hn), hn]
      exact ⟨m', rfl, rfl⟩
    · rw [if_neg (mt hrest.large_iff.mp hn)]
      exact ih (Nat.pos_of_ne_zero hn) (by omega) hrest

theorem exists_renormalize (hpos : 0 < m.a.toNat) (hlt : m.a.toNat < 0x8000) :
    ∃ m', m.renormalize? 15 = some m' ∧ m'.toDecoder = m.toDecoder.renormalize := by
  have hlog : m.a.toNat.log2 < 15 := (Nat.log2_lt hpos.ne').mpr hlt
  exact exists_renormalize? (n := 15 - m.a.toNat.log2) (by omega) (by omega)
    (Encoder.renormalized_size hpos (by omega))

/-! ## Decisions -/

/-- A coded number that isn't in the upper part of the interval is not below it. -/
theorem exists_lower? {a : Register} (qe : Register) (ha : a.toNat < 0x10000)
    (h : 0x10000 * a.toNat ≤ m.c.toNat) : ∃ m', m.lower? a qe = some m' ∧
      m'.toDecoder =
        { m.toDecoder with c := m.toDecoder.c - 0x10000 * a.toNat, a := qe.toNat } := by
  obtain ⟨upper, hshift, hupper⟩ :=
    exists_shift? (x := a) (n := 16) (k := 16) rfl (by decide) (by omega)
  obtain ⟨c, hsub, hc⟩ := exists_sub? (x := m.c) (y := upper) (by omega)
  refine ⟨{ m with c, a := qe }, ?_, ?_⟩
  · rw [lower?, hshift]
    dsimp only [Option.bind_eq_bind, Option.bind_some]
    rw [hsub]
    rfl
  · simp only [toDecoder, hc, hupper, Nat.mul_comm 0x10000, Nat.reducePow]

/-- One decision, in registers. -/
theorem exists_decode? (h : m.toDecoder.Steady) (cx : Context) :
    ∃ m', m.decode? cx.raw =
        some ((m.toDecoder.decode cx).1.toNat, (m.toDecoder.decode cx).2.1.raw, m') ∧
      m'.toDecoder = (m.toDecoder.decode cx).2.2 := by
  have hsize : m.toDecoder.a = m.a.toNat := rfl
  have hle := h.le_a
  have hlt := h.a_lt
  rw [hsize] at hle hlt
  have hpos := cx.qe_pos
  have hqe := cx.qe_le
  have hofNat := toNat_qe cx
  obtain ⟨a, hsub, ha, hlarge, hless⟩ := exists_sub_qe? cx hle hlt
  have hupper : m.c >>> 16 < a ↔ m.toDecoder.c / 0x10000 < m.a.toNat - cx.estimate.qe := by
    rw [UInt32.lt_iff_toNat_lt, UInt32.toNat_shiftRight, ha, Nat.shiftRight_eq_div_pow]
    rfl
  have hup : { m with a }.toDecoder = { m.toDecoder with a := m.a.toNat - cx.estimate.qe } := by
    simp only [toDecoder, ha]
  unfold decode? Decoder.decode
  rw [cx.estimate?_raw]
  dsimp only [Option.bind_eq_bind, Option.bind_some]
  rw [hsub]
  dsimp only [Option.bind_eq_bind, Option.bind_some]
  simp only [hsize, hupper, hlarge, hless, cx.lps?_raw, cx.afterLps?_raw, cx.afterMps?_raw]
  by_cases hc : m.toDecoder.c / 0x10000 < m.a.toNat - cx.estimate.qe
  -- in the upper part, which may still be large enough
  · simp only [if_pos hc]
    by_cases h8 : 0x8000 ≤ m.a.toNat - cx.estimate.qe
    · simp only [if_pos h8]
      exact ⟨_, rfl, hup⟩
    · simp only [if_neg h8]
      have ha8 : a.toNat < 0x8000 := by
        rw [ha]
        exact Nat.not_le.mp h8
      obtain ⟨m', hm', hd⟩ := exists_renormalize (m := { m with a }) (by simp only; omega) ha8
      rw [hup] at hd
      rw [hm']
      split <;> exact ⟨m', rfl, hd⟩
  -- in the lower part, which never is
  · simp only [if_neg hc]
    have hout : 0x10000 * a.toNat ≤ m.c.toNat := by
      rw [ha, Nat.mul_comm]
      exact (Nat.le_div_iff_mul_le (by decide)).mp (Nat.not_lt.mp hc)
    obtain ⟨m', hlower, hlow⟩ := exists_lower? (.ofNat cx.estimate.qe) (by omega) hout
    have hsize' : m'.a.toNat = (UInt32.ofNat cx.estimate.qe).toNat := congrArg Decoder.a hlow
    obtain ⟨m'', hm'', hd⟩ := exists_renormalize (m := m') (by omega) (by omega)
    rw [hlow, ha, hofNat] at hd
    rw [hlower]
    dsimp only [Option.bind_some]
    rw [hm'']
    split <;> exact ⟨m'', rfl, hd⟩

/-! ## Decisions one after another -/

theorem exists_ofBytes? (data : Bytes) :
    ∃ m, ofBytes? data = some m ∧ m.toDecoder = Decoder.ofBytes data := by
  let first : Machine := ⟨data, 0, 0, 0, 0, 0⟩
  let start : Machine := { first with c := ((first.byteAt 0).toUInt32 ^^^ 0xFF) <<< 16 }
  have hstart : start.toDecoder =
      { first.toDecoder with c := 0x10000 * (255 - first.toDecoder.byteAt 0) } := by
    have hbyte : ∀ i : Fin 256, (((UInt8.ofFin i).toUInt32 ^^^ 0xFF) <<< (16 : Register)).toNat =
        0x10000 * (255 - i.val) := by
      decide +kernel
    have hc := hbyte (first.byteAt 0).toFin
    simp only [start, toDecoder]
    rw [show (first.byteAt 0) = UInt8.ofFin (first.byteAt 0).toFin from rfl, hc]
    rfl
  have htake := toDecoder_takeByte start
  rw [hstart] at htake
  have hahead : 7 ≤ start.takeByte.ahead.toNat := start.takeByte_spec.2
  obtain ⟨ahead, hsub, hahead'⟩ := exists_sub? (x := start.takeByte.ahead) (y := 7) hahead
  refine ⟨{ start.takeByte with c := start.takeByte.c <<< 7, ahead, a := 0x8000 }, ?_, ?_⟩
  · have hdef : ofBytes? data = (sub? start.takeByte.ahead 7).bind fun ahead =>
        some { start.takeByte with c := start.takeByte.c <<< 7, ahead, a := 0x8000 } := rfl
    rw [hdef, hsub]
    rfl
  · have hshift (x : Register) : (x <<< 7).toNat = 0x80 * x.toNat % 0x100000000 :=
      toNat_shiftLeft x (k := 7) rfl (by decide)
    have hdef : Decoder.ofBytes data = { start.takeByte.toDecoder with
        c := 0x80 * start.takeByte.toDecoder.c % 0x100000000,
        ahead := start.takeByte.toDecoder.ahead - 7, a := 0x8000 } := by
      rw [htake]
      rfl
    rw [hdef]
    simp only [toDecoder, hshift, hahead']
    rfl

/-- Decisions in registers are those of numbers, and there is always room for them. -/
theorem exists_decodeAll? (h : m.toDecoder.Steady) (contexts : Contexts) (is : List Nat) :
    ∃ m', m.decodeAll? (contexts.map Context.raw) is =
        some ((m.toDecoder.decodeAll contexts is).1.map Bool.toNat,
          (m.toDecoder.decodeAll contexts is).2.1.map Context.raw, m') ∧
      m'.toDecoder = (m.toDecoder.decodeAll contexts is).2.2 ∧ m'.toDecoder.Steady := by
  induction is generalizing m contexts with
  | nil => exact ⟨m, rfl, rfl, h⟩
  | cons i is ih =>
    obtain ⟨m₁, hfirst, hd⟩ := exists_decode? h (contexts.lookup i)
    have hsteady := (h.decode (contexts.lookup i)).1
    rw [← hd] at hsteady
    obtain ⟨m₂, hrest, hd', hsteady'⟩ := ih hsteady (m.toDecoder.decodeAt contexts i).2.1
    rw [hd] at hrest hd'
    refine ⟨m₂, ?_, hd', hsteady'⟩
    rw [decodeAll?, Contexts.getD_map_raw, hfirst]
    dsimp only [Option.bind_eq_bind, Option.bind_some]
    rw [Contexts.setIfInBounds_map_raw]
    exact (congrArg (Option.bind · _) hrest).trans rfl

end Machine
end Decoder
end Bilevel.Mq

import Mathlib.Tactic.Ring
import Bilevel.Mq.SymbolId
import Bilevel.Proofs.Steps

/-!
# Checked lookups of contexts

Decisions are decoded in contexts that are looked up by number, and the numbers are put together
from bits that were decoded before. Here every lookup is checked: there is no result if there is no
context with the number. The contexts of an integer procedure have numbers of nine bits, a leading
one that moves up to the ninth and stays there, and those of symbol numbers have as many bits as
these, of which the leading one takes up one until the last bit has been decoded. Learning changes
contexts, but never how many there are.

A context itself can be kept as two numbers, the row of the table of estimates and the more probable
outcome, which is one or zero. Then the row has to be looked up as well, and the other outcome is
what is left of one.

## Main definitions

* `Decoder.decodeRaw?` — decoding one decision with a context of two numbers.
* `Decoder.decodeAt?`, `Integer.decode?`, `SymbolId.decode?` — decoding with checked lookups.

## Main results

* `Decoder.decodeRaw?_eq` — the numbers stay those of a context, whose row is in the table.
* `Integer.decode?_eq`, `SymbolId.decode?_eq` — decoding with checked lookups gives what decoding
  does.
-/

namespace Bilevel.Mq

@[simp] theorem Contexts.size_fresh (bits : Nat) : (fresh bits).size = 1 <<< bits := by
  simp [fresh]

/-! ## Contexts of two numbers -/

namespace Context

/-- A context as two numbers, which can be any. -/
structure Raw where
  /-- The row of the table of estimates. -/
  index : Nat := 0
  /-- The more probable outcome. -/
  mps : Nat := 0
  deriving DecidableEq, Repr

namespace Raw

/-- The row of the table, if it has one. -/
def estimate? (cx : Raw) : Option Estimate := estimates.toArray[cx.index]?

/-- The less probable outcome, if the other one isn't more than one. -/
def lps? (cx : Raw) : Option Nat := if cx.mps ≤ 1 then some (1 - cx.mps) else none

def afterMps? (cx : Raw) : Option Raw := do
  return { cx with index := (← cx.estimate?).nextMps }

def afterLps? (cx : Raw) : Option Raw := do
  let estimate ← cx.estimate?
  let lps ← cx.lps?
  return ⟨estimate.nextLps, if estimate.switch then lps else cx.mps⟩

end Raw

variable (cx : Context)

/-- The two numbers of a context. -/
def raw : Raw := ⟨cx.index, cx.mps.toNat⟩

theorem raw_index_lt : cx.raw.index < 47 := cx.index.isLt

theorem raw_mps_le : cx.raw.mps ≤ 1 := Bool.toNat_le _

theorem raw_default : ({} : Context).raw = {} := rfl

theorem estimate?_raw : cx.raw.estimate? = some cx.estimate := by
  have hlt : cx.raw.index < estimates.toArray.size := by
    rw [Vector.size_toArray]
    exact cx.raw_index_lt
  exact Array.getElem?_eq_getElem hlt

theorem lps?_raw : cx.raw.lps? = some (!cx.mps).toNat := by
  obtain ⟨index, mps⟩ := cx
  cases mps <;> rfl

theorem afterMps?_raw : cx.raw.afterMps? = some cx.afterMps.raw := by
  rw [Raw.afterMps?, estimate?_raw]
  rfl

theorem afterLps?_raw : cx.raw.afterLps? = some cx.afterLps.raw := by
  rw [Raw.afterLps?, estimate?_raw, lps?_raw]
  unfold afterLps raw
  cases hswitch : cx.estimate.switch <;> simp [hswitch]

end Context

namespace Decoder

/-- Decode one decision with a context of two numbers, if its row is in the table and the outcomes
are zero and one. -/
def decodeRaw? (d : Decoder) (cx : Context.Raw) : Option (Nat × Context.Raw × Decoder) := do
  let qe := (← cx.estimate?).qe
  let a := d.a - qe
  if d.c / 0x10000 < a then
    if 0x8000 ≤ a then return (cx.mps, cx, { d with a })
    else if a < qe then return (← cx.lps?, ← cx.afterLps?, { d with a }.renormalize)
    else return (cx.mps, ← cx.afterMps?, { d with a }.renormalize)
  else
    let d := { d with c := d.c - 0x10000 * a, a := qe }
    if a < qe then return (cx.mps, ← cx.afterMps?, d.renormalize)
    else return (← cx.lps?, ← cx.afterLps?, d.renormalize)

/-- Decoding with the two numbers of a context gives those of what is learnt. -/
theorem decodeRaw?_eq (d : Decoder) (cx : Context) :
    d.decodeRaw? cx.raw =
      some ((d.decode cx).1.toNat, (d.decode cx).2.1.raw, (d.decode cx).2.2) := by
  unfold decodeRaw? decode
  rw [cx.estimate?_raw]
  dsimp only [Option.bind_eq_bind, Option.bind_some]
  simp only [cx.lps?_raw, cx.afterLps?_raw, cx.afterMps?_raw, Option.bind_some]
  split
  · split
    · rfl
    · split <;> rfl
  · split <;> rfl

variable {d : Decoder} {contexts : Contexts} {i : Nat}

/-- Decode one decision in context `i`, if there is one. -/
def decodeAt? (d : Decoder) (contexts : Contexts) (i : Nat) : Option (Bool × Contexts × Decoder) :=
  (contexts[i]?).map fun cx =>
    let (bit, cx, d) := d.decode cx
    (bit, contexts.update i cx, d)

theorem decodeAt?_eq (d : Decoder) (h : i < contexts.size) :
    d.decodeAt? contexts i = some (d.decodeAt contexts i) := by
  simp [decodeAt?, decodeAt, Contexts.lookup, h]

@[simp] theorem size_decodeAt (d : Decoder) (contexts : Contexts) (i : Nat) :
    (d.decodeAt contexts i).2.1.size = contexts.size := by
  simp [decodeAt, Contexts.update]

end Decoder

/-! ## Integers -/

theorem nextContext_lt {previous : Nat} (h : previous < 512) (bit : Bool) :
    nextContext previous bit < 512 := by
  have hbit : bit.toNat < 2 := by cases bit <;> decide
  unfold nextContext
  split <;> omega

namespace Integer

namespace Decoding

/-- The next context is one of those that there are. -/
structure Fits (s : Decoding) : Prop where
  contexts : s.contexts.size = 512
  previous : s.previous < 512

def readBit? (s : Decoding) : Option (Bool × Decoding) := do
  let (bit, contexts, decoder) ← s.decoder.decodeAt? s.contexts s.previous
  return (bit, ⟨decoder, contexts, nextContext s.previous bit⟩)

def readBits? (s : Decoding) : (count n : Nat) → Option (Nat × Decoding)
  | 0, n => some (n, s)
  | count + 1, n => do
    let (bit, s) ← s.readBit?
    s.readBits? count (2 * n + bit.toNat)

def readMagnitude? (s : Decoding) : List Tier → Option (Nat × Decoding)
  | [] => do
    let (n, s) ← s.readBits? lastTier.bits 0
    return (lastTier.offset + n, s)
  | tier :: rest => do
    let (more, s) ← s.readBit?
    if more then s.readMagnitude? rest
    else
      let (n, s) ← s.readBits? tier.bits 0
      return (tier.offset + n, s)

variable {s : Decoding} (h : s.Fits)

include h

theorem Fits.readBit : s.readBit.2.Fits :=
  ⟨(Decoder.size_decodeAt ..).trans h.contexts, nextContext_lt h.previous _⟩

theorem readBit?_eq : s.readBit? = some s.readBit := by
  rw [readBit?, Decoder.decodeAt?_eq _ (by rw [h.contexts]; exact h.previous)]
  rfl

theorem Fits.readBits (count n : Nat) : (s.readBits count n).2.Fits := by
  induction count generalizing s n with
  | zero => exact h
  | succ count ih => exact ih h.readBit _

theorem readBits?_eq (count n : Nat) : s.readBits? count n = some (s.readBits count n) := by
  induction count generalizing s n with
  | zero => rfl
  | succ count ih =>
    rw [readBits?, readBit?_eq h]
    exact ih h.readBit _

theorem Fits.readMagnitude (ts : List Tier) : (s.readMagnitude ts).2.Fits := by
  induction ts generalizing s with
  | nil =>
    have hbits := h.readBits lastTier.bits 0
    rw [Decoding.readMagnitude]
    generalize s.readBits lastTier.bits 0 = read at hbits ⊢
    exact hbits
  | cons tier ts ih =>
    have hbit := h.readBit
    rw [Decoding.readMagnitude]
    generalize s.readBit = read at hbit ⊢
    obtain ⟨more, s'⟩ := read
    dsimp only
    split
    · exact ih hbit
    · have hbits := hbit.readBits tier.bits 0
      generalize s'.readBits tier.bits 0 = read at hbits ⊢
      exact hbits

theorem readMagnitude?_eq (ts : List Tier) : s.readMagnitude? ts = some (s.readMagnitude ts) := by
  induction ts generalizing s with
  | nil =>
    rw [readMagnitude?, readMagnitude, readBits?_eq h]
    rfl
  | cons tier ts ih =>
    have hbit := h.readBit
    rw [readMagnitude?, readMagnitude, readBit?_eq h]
    generalize s.readBit = read at hbit ⊢
    obtain ⟨more, s'⟩ := read
    dsimp only [Option.bind_eq_bind, Option.bind_some]
    split
    · exact ih hbit
    · rw [readBits?_eq hbit]
      rfl

end Decoding

open Decoding

/-- Decode a value with checked lookups. -/
def decode? (d : Decoder) (contexts : Contexts) :
    Option (Except DecodeError (Value × Contexts × Decoder)) := do
  let (negative, s) ← (Decoding.mk d contexts 1).readBit?
  let (n, s) ← s.readMagnitude? tiers
  return do
    s.decoder.checkData
    if n ≤ 0x7FFFFFFF then return (ofMagnitude negative n, s.contexts, s.decoder)
    else throw .overflow

variable {d d' : Decoder} {contexts learnt : Contexts} {value : Value}

theorem decode?_eq (h : contexts.size = 512) : decode? d contexts = some (decode d contexts) := by
  have hstart : Fits ⟨d, contexts, 1⟩ := ⟨h, (by decide : 1 < 512)⟩
  have hbit := hstart.readBit
  rw [decode?, decode, readBit?_eq hstart]
  generalize (Decoding.mk d contexts 1).readBit = read at hbit ⊢
  obtain ⟨negative, s⟩ := read
  dsimp only [Option.bind_eq_bind, Option.bind_some]
  rw [readMagnitude?_eq hbit]
  rfl

theorem size_of_decode (h : contexts.size = 512)
    (hdecode : decode d contexts = .ok (value, learnt, d')) : learnt.size = 512 := by
  have hstart : Fits ⟨d, contexts, 1⟩ := ⟨h, (by decide : 1 < 512)⟩
  have hbit := hstart.readBit
  rw [decode] at hdecode
  generalize (Decoding.mk d contexts 1).readBit = read at hdecode hbit
  obtain ⟨negative, s⟩ := read
  have hmagnitude := hbit.readMagnitude tiers
  dsimp only at hdecode
  generalize s.readMagnitude tiers = magnitude at hdecode hmagnitude
  obtain ⟨n, s'⟩ := magnitude
  obtain ⟨_, -, hdecode⟩ := bind_eq_ok.mp hdecode
  split at hdecode
  · cases hdecode
    exact hmagnitude.contexts
  · exact absurd hdecode throw_ne_ok

end Integer

/-! ## Symbol numbers -/

namespace SymbolId

def decodeBits? (d : Decoder) (contexts : Contexts) :
    (count previous : Nat) → Option (Nat × Contexts × Decoder)
  | 0, previous => some (previous, contexts, d)
  | count + 1, previous => do
    let (bit, contexts, d) ← d.decodeAt? contexts previous
    decodeBits? d contexts count (2 * previous + bit.toNat)

/-- Decode a number of `length` bits with checked lookups. -/
def decode? (d : Decoder) (contexts : Contexts) (length : Nat) :
    Option (Except DecodeError (Nat × Contexts × Decoder)) := do
  let (id, contexts, d) ← decodeBits? d contexts length 1
  return do
    d.checkData
    return (id - 1 <<< length, contexts, d)

variable {d d' : Decoder} {contexts learnt : Contexts}

/-- The bits before the next one, with the leading one, leave room for those that are still to be
decoded. -/
theorem decodeBits?_eq {count previous length : Nat} (hsize : contexts.size = 1 <<< length)
    (hprevious : (previous + 1) * 2 ^ count ≤ 2 * 2 ^ length) :
    decodeBits? d contexts count previous = some (decodeBits d contexts count previous) := by
  induction count generalizing d contexts previous with
  | zero => rfl
  | succ count ih =>
    have hroom : (previous + 1) * 2 ^ count ≤ 2 ^ length := by
      rw [Nat.pow_succ, ← Nat.mul_assoc, Nat.mul_comm 2] at hprevious
      exact Nat.le_of_mul_le_mul_right hprevious (by decide)
    have hlt : previous < contexts.size := by
      rw [hsize, Nat.one_shiftLeft]
      exact Nat.lt_of_lt_of_le (Nat.lt_succ_self previous)
        (Nat.le_trans (Nat.le_mul_of_pos_right _ (Nat.two_pow_pos count)) hroom)
    rw [decodeBits?, Decoder.decodeAt?_eq d hlt]
    refine ih ((Decoder.size_decodeAt ..).trans hsize) ?_
    have hbit : (d.decodeAt contexts previous).1.toNat ≤ 1 := Bool.toNat_le _
    calc (2 * previous + (d.decodeAt contexts previous).1.toNat + 1) * 2 ^ count
      _ ≤ (2 * (previous + 1)) * 2 ^ count := Nat.mul_le_mul_right _ (by omega)
      _ ≤ 2 * 2 ^ length := by
        rw [Nat.mul_assoc]
        exact Nat.mul_le_mul_left 2 hroom

theorem size_decodeBits (d : Decoder) (contexts : Contexts) (count previous : Nat) :
    (decodeBits d contexts count previous).2.1.size = contexts.size := by
  induction count generalizing d contexts previous with
  | zero => rfl
  | succ count ih => exact (ih _ _ _).trans (Decoder.size_decodeAt ..)

theorem decode?_eq {length : Nat} (hsize : contexts.size = 1 <<< length) :
    decode? d contexts length = some (decode d contexts length) := by
  rw [decode?, decodeBits?_eq hsize (Nat.le_refl _)]
  rfl

theorem size_of_decode {length id : Nat} (h : decode d contexts length = .ok (id, learnt, d')) :
    learnt.size = contexts.size := by
  obtain ⟨_, -, h⟩ := bind_eq_ok.mp h
  cases h
  exact size_decodeBits d contexts length 1

end SymbolId
end Bilevel.Mq

import Bilevel.Proofs.Mq.DecoderRegisters

/-!
# Encoding in registers

The numbers of an encoder can be kept in registers as well. Here the upper end of the interval has to
fit into a register at all times, a shift must not lose a bit of the lower end, and there must be no
carry before there is a byte that it can reach. What bounds the lower end is the number of doublings
until the next byte is complete: that many doublings don't take it farther behind the carry bit than
an eighth, and not even to the carry bit as long as there is no byte.

## Main definitions

* `Encoder.Machine` — an encoder in registers.
* `Encoder.Machine.InRange` — what is checked whenever the registers have changed.

## Main results

* `Encoder.Machine.exists_encode?`, `Encoder.Machine.exists_encodeAll?` — decisions keep the
  registers in range.
* `Encoder.Machine.finish?_eq` — completing the stream keeps them in range, too.
* `registers_inRange` — all of it, for decoders and encoders from their start.
-/

namespace Bilevel.Mq

namespace Encoder

section Bounded

variable {e : Encoder} (h : e.Bounded)
include h

/-- The doublings until the next byte is complete don't take the lower end far behind the carry
bit. -/
theorem c_mul_lt :
    e.c * 2 ^ e.free < 0x9000000 ∧ (e.started = false → e.c * 2 ^ e.free < 0x8000000) :=
  c_lt (bounded_shift h le_rfl) (Nat.sub_self _)

theorem c_lt_carry : e.c < 0x9000000 ∧ (e.started = false → e.c < 0x8000000) := by
  have hle := Nat.le_mul_of_pos_right e.c (Nat.two_pow_pos e.free)
  exact ⟨hle.trans_lt (c_mul_lt h).1, fun hs => hle.trans_lt ((c_mul_lt h).2 hs)⟩

end Bounded

/-- An encoder whose numbers are kept in registers. -/
structure Machine where
  out : Bytes
  c : Register
  a : Register
  free : Register
  last : UInt8
  started : Bool
  deriving DecidableEq

namespace Machine

open Register

def toEncoder (m : Machine) : Encoder :=
  ⟨m.out, m.c.toNat, m.a.toNat, m.free.toNat, m.last, m.started⟩

/-- The upper end of the interval fits into a register, and there is no carry without a byte that it
can reach. -/
def InRange (m : Machine) : Prop :=
  m.c.toNat + m.a.toNat < 2 ^ 32 ∧ (m.started ∨ m.c < 0x8000000)

instance (m : Machine) : Decidable m.InRange := inferInstanceAs (Decidable (_ ∧ _))

def checked? (m : Machine) : Option Machine := if m.InRange then some m else none

def start : Machine := ⟨#[], 0, 0x8000, 12, 0, false⟩

/-! ## Putting out a byte -/

def settled (m : Machine) : Bytes := if m.started then m.out.push m.last else m.out

def emit (m : Machine) : Machine where
  out := m.settled
  last := (m.c >>> 19).toUInt8
  c := m.c &&& 0x7FFFF
  a := m.a
  free := 8
  started := true

def emitStuffed (m : Machine) : Machine where
  out := m.settled
  last := (m.c >>> 20).toUInt8
  c := m.c &&& 0xFFFFF
  a := m.a
  free := 7
  started := true

/-- Put out a byte, after the carry if there is one. -/
def putByte (m : Machine) : Machine :=
  if m.last = 0xFF then m.emitStuffed
  else if m.c < 0x8000000 then m.emit
  else
    let carried := { m with last := m.last + 1 }
    if carried.last = 0xFF then { carried with c := m.c &&& 0x7FFFFFF }.emitStuffed
    else carried.emit

/-! ## Encoding -/

/-- Double the interval. -/
def double? (m : Machine) : Option Machine := do
  let a ← shift? m.a 1
  let c ← shift? m.c 1
  let free ← sub? m.free 1
  let m ← checked? { m with a, c, free }
  if m.free = 0 then m.putByte.checked? else return m

/-- Double the interval until it is large enough, at most as often as `shifts` says. -/
def renormalize? (m : Machine) : (shifts : Nat) → Option Machine
  | 0 => none
  | shifts + 1 => do
    let m ← m.double?
    if m.a.large then return m else m.renormalize? shifts

/-- Go on to the upper part of the interval, of the size `a`, or to the lower one, of the size
`qe`. -/
def narrow? (m : Machine) (upper : Bool) (a qe : Register) : Option Machine := do
  if upper then
    let c ← add? m.c qe
    checked? { m with a, c }
  else checked? { m with a := qe }

/-- Encode the more probable outcome of a context of two numbers. -/
def encodeMps? (m : Machine) (cx : Context.Raw) : Option (Context.Raw × Machine) := do
  let qe := UInt32.ofNat (← cx.estimate?).qe
  let a ← sub? m.a qe
  if a.large then return (cx, ← m.narrow? true a qe)
  else
    let m ← m.narrow? (¬a < qe) a qe
    return (← cx.afterMps?, ← m.renormalize? 15)

/-- Encode the less probable outcome of a context of two numbers. -/
def encodeLps? (m : Machine) (cx : Context.Raw) : Option (Context.Raw × Machine) := do
  let qe := UInt32.ofNat (← cx.estimate?).qe
  let a ← sub? m.a qe
  let m ← m.narrow? (a < qe) a qe
  return (← cx.afterLps?, ← m.renormalize? 15)

/-- Encode one decision, the lowest bit of a number. -/
def encode? (m : Machine) (cx : Context.Raw) (bit : Register) : Option (Context.Raw × Machine) :=
  if (bit &&& 1).toNat = cx.mps then m.encodeMps? cx else m.encodeLps? cx

/-- Encode one decision after the other, each in the context with the given number. -/
def encodeAll? (m : Machine) (contexts : Array Context.Raw) :
    List (Nat × Register) → Option (Array Context.Raw × Machine)
  | [] => some (contexts, m)
  | (i, bit) :: decisions => do
    let (cx, m) ← m.encode? (contexts.getD i {}) bit
    m.encodeAll? (contexts.setIfInBounds i cx) decisions

/-- Set as many bits of the lower end as the interval allows. -/
def setBits? (m : Machine) : Option Machine := do
  let upper ← add? m.c m.a
  let filled := m.c ||| 0xFFFF
  let c ← (if upper ≤ filled then sub? filled 0x8000 else some filled)
  checked? { m with c }

/-- Put out a byte as soon as it is complete. -/
def putRest? (m : Machine) : Option Machine := do
  let c ← shift? m.c m.free
  let m ← checked? { m with c }
  m.putByte.checked?

/-- Complete the stream with the remaining bits and the marker `FF AC`. -/
def finish? (m : Machine) : Option Bytes := do
  let m ← m.setBits?
  let m ← m.putRest?
  let m ← m.putRest?
  let out := if m.last = 0xFF then m.settled else m.settled.push 0xFF
  return out.push 0xAC

variable {m : Machine}

/-! ## Being in range -/

theorem checked?_eq (h : m.InRange) : m.checked? = some m := if_pos h

/-- The bounds of an encoder keep the registers in range, also those of the encoder with an interval
of another size. -/
theorem inRange_of_withSize (size : Nat) (h : (m.toEncoder.withSize size).Bounded)
    (ha : m.a.toNat < 0x10000) : m.InRange := by
  have hlt : m.c.toNat < 0x9000000 := (c_lt_carry h).1
  refine ⟨by omega, ?_⟩
  cases hs : m.started with
  | true => exact .inl rfl
  | false => exact .inr (UInt32.lt_iff_toNat_lt.mpr ((c_lt_carry h).2 hs))

theorem inRange_of_bounded (h : m.toEncoder.Bounded) (ha : m.a.toNat < 0x10000) : m.InRange :=
  inRange_of_withSize m.a.toNat h ha

/-! ## Bytes -/

theorem toNat_c_emit (m : Machine) : m.emit.c.toNat = m.c.toNat % 0x80000 :=
  toNat_and_mask m.c 0x7FFFF (k := 19) rfl

theorem toNat_c_emitStuffed (m : Machine) : m.emitStuffed.c.toNat = m.c.toNat % 0x100000 :=
  toNat_and_mask m.c 0xFFFFF (k := 20) rfl

theorem toEncoder_emit (m : Machine) : m.emit.toEncoder = m.toEncoder.emit := by
  rw [toEncoder, toNat_c_emit]
  rfl

theorem toEncoder_emitStuffed (m : Machine) :
    m.emitStuffed.toEncoder = m.toEncoder.emitStuffed := by
  rw [toEncoder, toNat_c_emitStuffed]
  rfl

theorem toEncoder_putByte (m : Machine) : m.putByte.toEncoder = m.toEncoder.putByte := by
  have hcarry : m.toEncoder.c < 0x8000000 ↔ m.c < 0x8000000 :=
    (UInt32.lt_iff_toNat_lt (b := 0x8000000)).symm
  have hclear : (m.c &&& 0x7FFFFFF).toNat = m.c.toNat % 0x8000000 :=
    toNat_and_mask m.c 0x7FFFFFF (k := 27) rfl
  unfold putByte Encoder.putByte
  simp only [hcarry, show m.toEncoder.last = m.last from rfl]
  split_ifs
  · exact toEncoder_emitStuffed m
  · exact toEncoder_emit m
  · rw [toEncoder_emitStuffed, toEncoder]
    simp only [hclear]
    rfl
  · exact toEncoder_emit _

/-- Behind a byte that was just put out, the lower end is small. -/
theorem putByte_spec (m : Machine) :
    m.putByte.a = m.a ∧ m.putByte.started = true ∧ m.putByte.c.toNat < 0x100000 := by
  have hemit (m : Machine) : m.emit.c.toNat < 0x100000 := by
    rw [toNat_c_emit]
    omega
  have hstuffed (m : Machine) : m.emitStuffed.c.toNat < 0x100000 := by
    rw [toNat_c_emitStuffed]
    exact Nat.mod_lt _ (by decide)
  unfold putByte
  dsimp only
  split_ifs
  · exact ⟨rfl, rfl, hstuffed m⟩
  · exact ⟨rfl, rfl, hemit m⟩
  · exact ⟨rfl, rfl, hstuffed _⟩
  · exact ⟨rfl, rfl, hemit _⟩

theorem inRange_putByte (ha : m.a.toNat < 0x10000) : m.putByte.InRange := by
  obtain ⟨hsize, hstarted, hc⟩ := m.putByte_spec
  refine ⟨?_, .inl hstarted⟩
  rw [hsize]
  omega

/-! ## Doubling -/

/-- A step of the renormalization loses no bit, and counts down from one or more. -/
theorem exists_double? (h : m.toEncoder.Bounded) (hf : 0 < m.free.toNat)
    (ha : m.a.toNat < 0x8000) : ∃ m', m.double? = some m' ∧ m'.toEncoder = m.toEncoder.double := by
  have hroom := (c_mul_lt h).1
  have hpow : 2 ^ 1 ≤ 2 ^ m.free.toNat := Nat.pow_le_pow_right (by decide) hf
  have hc2 : m.c.toNat * 2 ^ 1 < 0x9000000 := (Nat.mul_le_mul_left _ hpow).trans_lt hroom
  obtain ⟨a, hshift, ha'⟩ := exists_shift? (x := m.a) (n := 1) (k := 1) rfl (by decide) (by omega)
  obtain ⟨c, hshift', hc'⟩ := exists_shift? (x := m.c) (n := 1) (k := 1) rfl (by decide) (by omega)
  obtain ⟨free, hsub, hfree⟩ := exists_sub? (x := m.free) (y := 1) hf
  let m₁ : Machine := { m with a, c, free }
  have hm₁ : m₁.toEncoder = m.toEncoder.shift 1 := by
    simp only [m₁, toEncoder, shift, ha', hc', hfree]
    rfl
  have hb₁ : m₁.toEncoder.Bounded := hm₁ ▸ bounded_shift h hf
  have ha₁ : m₁.a.toNat < 0x10000 := by
    simp only [m₁]
    omega
  have hrange := inRange_of_bounded hb₁ ha₁
  have hdouble : m.double? = if m₁.free = 0 then m₁.putByte.checked? else some m₁ := by
    rw [double?, hshift]
    dsimp only [Option.bind_eq_bind, Option.bind_some]
    rw [hshift']
    dsimp only [Option.bind_some]
    rw [hsub]
    dsimp only [Option.bind_some]
    rw [checked?_eq hrange]
    rfl
  have hzero : m₁.toEncoder.free = 0 ↔ m₁.free = 0 := UInt32.toNat_inj (b := 0)
  rw [hdouble, double_eq, ← hm₁]
  by_cases h0 : m₁.free = 0
  · rw [if_pos h0, if_pos (hzero.mpr h0), ← toEncoder_putByte]
    exact ⟨_, checked?_eq (inRange_putByte ha₁), rfl⟩
  · rw [if_neg h0, if_neg (mt hzero.mp h0)]
    exact ⟨m₁, rfl, rfl⟩

/-- An interval that gets large enough by `n` doublings is doubled as often. -/
theorem exists_renormalize? {n shifts : Nat} (h : m.toEncoder.Bounded) (hf : 0 < m.free.toNat)
    (hn : 0 < n) (hshifts : n ≤ shifts) (hlarge : LargeAfter m.a.toNat n) :
    ∃ m', m.renormalize? shifts = some m' ∧ m'.toEncoder = m.toEncoder.doubleTimes n := by
  -- as for decoders; the bounds of the encoder go along, since a byte may be put out on the way
  induction n generalizing m shifts with
  | zero => omega
  | succ n ih =>
    obtain ⟨shifts, rfl⟩ : ∃ k, shifts = k + 1 := ⟨shifts - 1, by omega⟩
    obtain ⟨ha, hrest⟩ := hlarge.double
    obtain ⟨m', hdouble, hd⟩ := exists_double? h hf ha
    have hda : m'.a.toNat = 2 * m.a.toNat := (congrArg Encoder.a hd).trans (a_double h hf)
    rw [renormalize?, hdouble]
    dsimp only [Option.bind_eq_bind, Option.bind_some]
    rw [← hda] at hrest
    rw [Encoder.doubleTimes, ← hd]
    by_cases hn : n = 0
    · rw [if_pos (hrest.large_iff.mpr hn), hn]
      exact ⟨m', rfl, rfl⟩
    · have hbounded := bounded_double h hf ha.le
      have hfree := free_double_pos h hf
      rw [← hd] at hbounded hfree
      rw [if_neg (mt hrest.large_iff.mp hn)]
      exact ih hbounded hfree (Nat.pos_of_ne_zero hn) (by omega) hrest

theorem exists_renormalize (h : m.toEncoder.Bounded) (hf : 0 < m.free.toNat)
    (hlt : m.a.toNat < 0x8000) :
    ∃ m', m.renormalize? 15 = some m' ∧ m'.toEncoder = m.toEncoder.renormalize := by
  have hpos : 0 < m.a.toNat := h.a_pos
  have hlog : m.a.toNat.log2 < 15 := (Nat.log2_lt hpos.ne').mpr hlt
  exact exists_renormalize? (n := 15 - m.a.toNat.log2) h hf (by omega) (by omega)
    (renormalized_size hpos (by omega))

/-! ## Decisions -/

section Encode

variable (h : m.toEncoder.Ready) (cx : Context)
include h

/-- A part of the interval ends where that does at the latest. -/
theorem exists_narrow? (upper : Bool) {a : Register} (ha : a.toNat = m.a.toNat - cx.estimate.qe) :
    ∃ m', m.narrow? upper a (.ofNat cx.estimate.qe) = some m' ∧
      m'.toEncoder = m.toEncoder.narrow upper cx.estimate.qe := by
  have hsize : m.a.toNat < 0x10000 := h.a_lt
  have hlt : cx.estimate.qe < m.a.toNat := qe_lt_a h cx
  have hqe := toNat_qe cx
  have hb := bounded_narrow upper cx.qe_pos hlt h.toBounded
  cases upper with
  | false =>
    have hm : toEncoder { m with a := .ofNat cx.estimate.qe } =
        m.toEncoder.narrow false cx.estimate.qe := by
      simp only [toEncoder, hqe]
      rfl
    exact ⟨_, checked?_eq (inRange_of_bounded (hm ▸ hb) (by simp only; omega)), hm⟩
  | true =>
    have hc : m.c.toNat < 0x9000000 := (c_lt_carry h.toBounded).1
    obtain ⟨c, hadd, hc'⟩ := exists_add? (x := m.c) (y := .ofNat cx.estimate.qe) (by omega)
    have hm : toEncoder { m with a, c } = m.toEncoder.narrow true cx.estimate.qe := by
      simp only [toEncoder, ha, hc', hqe]
      rfl
    have hnarrow : m.narrow? true a (.ofNat cx.estimate.qe) =
        (add? m.c (.ofNat cx.estimate.qe)).bind fun c => checked? { m with a, c } := rfl
    refine ⟨{ m with a, c }, ?_, hm⟩
    rw [hnarrow, hadd]
    exact checked?_eq (inRange_of_bounded (hm ▸ hb) (by simp only; omega))

/-- A part of the interval that is too small is doubled. -/
theorem exists_narrow_renormalize? (upper : Bool) {a : Register}
    (ha : a.toNat = m.a.toNat - cx.estimate.qe) (hsmall : upper = true → a.toNat < 0x8000) :
    ∃ m₁ m₂, m.narrow? upper a (.ofNat cx.estimate.qe) = some m₁ ∧
      m₁.renormalize? 15 = some m₂ ∧
      m₂.toEncoder = (m.toEncoder.narrow upper cx.estimate.qe).renormalize := by
  obtain ⟨m₁, hnarrow, hm₁⟩ := exists_narrow? h cx upper ha
  have hb := bounded_narrow upper cx.qe_pos (qe_lt_a h cx) h.toBounded
  have hf := (free_narrow m.toEncoder upper cx.estimate.qe).symm ▸ h.free_pos
  have hlt : (m.toEncoder.narrow upper cx.estimate.qe).a < 0x8000 := by
    cases upper with
    | false => exact cx.qe_le.trans_lt (by decide)
    | true => exact ha.symm.trans_lt (hsmall rfl)
  rw [← hm₁] at hb hf hlt
  obtain ⟨m₂, hrenormalize, hm₂⟩ := exists_renormalize hb hf hlt
  exact ⟨m₁, m₂, hnarrow, hrenormalize, hm₁ ▸ hm₂⟩

theorem exists_encodeMps? : ∃ m', m.encodeMps? cx.raw =
      some ((m.toEncoder.encodeMps cx).1.raw, m') ∧
    m'.toEncoder = (m.toEncoder.encodeMps cx).2 := by
  obtain ⟨a, hsub, ha, hlarge, hless⟩ := exists_sub_qe? cx h.le_a h.a_lt
  have hsize : m.toEncoder.a = m.a.toNat := rfl
  unfold encodeMps? Encoder.encodeMps
  rw [cx.estimate?_raw]
  dsimp only [Option.bind_eq_bind, Option.bind_some]
  rw [hsub]
  dsimp only [Option.bind_some]
  simp only [hsize, hlarge, hless, cx.afterMps?_raw]
  by_cases h8 : 0x8000 ≤ m.a.toNat - cx.estimate.qe
  · obtain ⟨m', hnarrow, hm'⟩ := exists_narrow? h cx true ha
    rw [if_pos h8, if_pos h8, hnarrow]
    exact ⟨m', rfl, hm'⟩
  · obtain ⟨m₁, m₂, hnarrow, hrenormalize, hm₂⟩ := exists_narrow_renormalize? h cx
      (¬m.a.toNat - cx.estimate.qe < cx.estimate.qe) ha
      fun _ => ha.trans_lt (Nat.not_le.mp h8)
    rw [if_neg h8, if_neg h8, hnarrow]
    dsimp only [Option.bind_some]
    rw [hrenormalize]
    split
    · next hif =>
      simp only [hif, not_true, decide_false] at hm₂
      exact ⟨m₂, rfl, hm₂⟩
    · next hif =>
      simp only [hif, not_false_eq_true, decide_true] at hm₂
      exact ⟨m₂, rfl, hm₂⟩

theorem exists_encodeLps? : ∃ m', m.encodeLps? cx.raw =
      some ((m.toEncoder.encodeLps cx).1.raw, m') ∧
    m'.toEncoder = (m.toEncoder.encodeLps cx).2 := by
  obtain ⟨a, hsub, ha, -, hless⟩ := exists_sub_qe? cx h.le_a h.a_lt
  have hsize : m.toEncoder.a = m.a.toNat := rfl
  have hqe := cx.qe_le
  unfold encodeLps? Encoder.encodeLps
  rw [cx.estimate?_raw]
  dsimp only [Option.bind_eq_bind, Option.bind_some]
  rw [hsub]
  dsimp only [Option.bind_some]
  simp only [hsize, hless, cx.afterLps?_raw]
  obtain ⟨m₁, m₂, hnarrow, hrenormalize, hm₂⟩ := exists_narrow_renormalize? h cx
    (m.a.toNat - cx.estimate.qe < cx.estimate.qe) ha fun hif => by
      have := of_decide_eq_true hif
      omega
  rw [hnarrow]
  dsimp only [Option.bind_some]
  rw [hrenormalize]
  split
  · next hif =>
    simp only [hif, decide_true] at hm₂
    exact ⟨m₂, rfl, hm₂⟩
  · next hif =>
    simp only [hif, decide_false] at hm₂
    exact ⟨m₂, rfl, hm₂⟩

theorem exists_encode? (bit : Register) : ∃ m', m.encode? cx.raw bit =
      some ((m.toEncoder.encode cx bit.odd).1.raw, m') ∧
    m'.toEncoder = (m.toEncoder.encode cx bit.odd).2 := by
  have hbit : (bit &&& 1).toNat = cx.raw.mps ↔ bit.odd = cx.mps := by
    have hinj : ∀ x y : Bool, x.toNat = y.toNat ↔ x = y := by decide
    rw [toNat_and_one]
    exact hinj bit.odd cx.mps
  unfold encode? Encoder.encode
  simp only [hbit]
  split
  · exact exists_encodeMps? h cx
  · exact exists_encodeLps? h cx

end Encode

/-- Decisions in registers are those of numbers, and there is always room for them. -/
theorem exists_encodeAll? (h : m.toEncoder.Ready) (contexts : Contexts)
    (decisions : List (Nat × Register)) :
    ∃ m', m.encodeAll? (contexts.map Context.raw) decisions =
        some ((m.toEncoder.encodeAll contexts (decisions.map (Prod.map id odd))).1.map Context.raw,
          m') ∧
      m'.toEncoder = (m.toEncoder.encodeAll contexts (decisions.map (Prod.map id odd))).2 := by
  induction decisions generalizing m contexts with
  | nil => exact ⟨m, rfl, rfl⟩
  | cons decision decisions ih =>
    obtain ⟨i, bit⟩ := decision
    obtain ⟨m₁, hfirst, hm₁⟩ := exists_encode? h (contexts.lookup i) bit
    have hready := ready_encode h (contexts.lookup i) bit.odd
    rw [← hm₁] at hready
    obtain ⟨m₂, hrest, hm₂⟩ := ih hready (m.toEncoder.encodeAt contexts i bit.odd).1
    rw [hm₁] at hrest hm₂
    refine ⟨m₂, ?_, hm₂⟩
    rw [encodeAll?, Contexts.getD_map_raw, hfirst]
    dsimp only [Option.bind_eq_bind, Option.bind_some]
    rw [Contexts.setIfInBounds_map_raw]
    exact hrest

/-! ## The end of a stream -/

/-- The bits that are set leave the lower end in the interval. -/
theorem exists_setBits? (h : m.toEncoder.Ready) :
    ∃ m', m.setBits? = some m' ∧ m'.toEncoder = m.toEncoder.setBits ∧ m'.a = m.a := by
  have hlt : m.a.toNat < 0x10000 := h.a_lt
  have hc : m.c.toNat < 0x9000000 := (c_lt_carry h.toBounded).1
  have hfilled : (m.c ||| 0xFFFF).toNat = m.c.toNat / 0x10000 * 0x10000 + 0xFFFF :=
    toNat_or_mask m.c 0xFFFF (k := 16) rfl
  have hones : (0x8000 : Register).toNat ≤ (m.c ||| 0xFFFF).toNat := by
    rw [hfilled]
    exact Nat.le_add_left_of_le (by decide)
  obtain ⟨upper, hadd, hupper⟩ := exists_add? (x := m.c) (y := m.a) (by omega)
  obtain ⟨less, hsub, hless⟩ := exists_sub? hones
  have hle : upper ≤ m.c ||| 0xFFFF ↔
      m.toEncoder.c + m.toEncoder.a ≤ m.toEncoder.c / 0x10000 * 0x10000 + 0xFFFF := by
    rw [UInt32.le_iff_toNat_le, hupper, hfilled]
    rfl
  let c := if upper ≤ m.c ||| 0xFFFF then less else m.c ||| 0xFFFF
  have hc' : c.toNat = m.toEncoder.setBits.c := by
    rw [apply_ite UInt32.toNat, hless, hfilled]
    simp only [hle]
    rfl
  have hm : toEncoder { m with c } = m.toEncoder.setBits := by
    rw [toEncoder, hc']
    rfl
  have hrange : InRange { m with c } := by
    refine inRange_of_withSize 1 ?_ hlt
    rw [hm]
    exact bounded_setBits h
  refine ⟨{ m with c }, ?_, hm, rfl⟩
  have hset : (if upper ≤ m.c ||| 0xFFFF then sub? (m.c ||| 0xFFFF) 0x8000
      else some (m.c ||| 0xFFFF)) = some c := by
    rw [hsub, ← apply_ite some]
  rw [setBits?, hadd]
  dsimp only [Option.bind_eq_bind, Option.bind_some]
  rw [hset]
  exact checked?_eq hrange

/-- One of the last bytes takes as many doublings as it lacks. -/
theorem exists_putRest? {size : Nat} (h : (m.toEncoder.withSize size).Bounded)
    (ha : m.a.toNat < 0x10000) : ∃ m', m.putRest? = some m' ∧ m'.a = m.a ∧
      m'.toEncoder =
        Encoder.putByte { m.toEncoder with c := m.toEncoder.c <<< m.toEncoder.free } := by
  have hfree : m.free.toNat ≤ 12 := h.free_le
  have hroom := c_mul_lt h
  have hc : m.c.toNat * 2 ^ m.free.toNat < 0x9000000 := hroom.1
  obtain ⟨c, hshift, hc'⟩ := exists_shift? (x := m.c) (n := m.free) rfl (by omega) (by omega)
  have hm : toEncoder { m with c } =
      { m.toEncoder with c := m.toEncoder.c <<< m.toEncoder.free } := by
    simp only [toEncoder, hc', Nat.shiftLeft_eq]
  have hrange : InRange { m with c } := by
    refine ⟨by simp only; omega, ?_⟩
    cases hs : m.started with
    | true => exact .inl rfl
    | false => exact .inr (UInt32.lt_iff_toNat_lt.mpr (hc' ▸ hroom.2 hs))
  have hput : (putByte { m with c }).InRange := inRange_putByte ha
  refine ⟨putByte { m with c }, ?_, (putByte_spec _).1, ?_⟩
  · rw [putRest?, hshift]
    dsimp only [Option.bind_eq_bind, Option.bind_some]
    rw [checked?_eq hrange]
    exact checked?_eq hput
  · rw [toEncoder_putByte, hm]

/-- Completing the stream in registers gives its bytes. -/
theorem finish?_eq (h : m.toEncoder.Ready) : m.finish? = some m.toEncoder.finish := by
  obtain ⟨m₁, hset, hm₁, ha₁⟩ := exists_setBits? h
  have hlt : m.a.toNat < 0x10000 := h.a_lt
  -- the bits that were set leave no room for the size of the interval, which isn't used any more
  have hb₁ : (m₁.toEncoder.withSize 1).Bounded := hm₁ ▸ bounded_setBits h
  obtain ⟨m₂, hput, ha₂, hm₂⟩ := exists_putRest? hb₁ (ha₁ ▸ hlt)
  have hb₂ : (m₂.toEncoder.withSize (1 * 2 ^ m₁.free.toNat)).Bounded := by
    have hb := bounded_putRest_setBits h
    rw [← hm₁, putRest_withSize, ← hm₂] at hb
    exact hb
  obtain ⟨m₃, hput', -, hm₃⟩ := exists_putRest? hb₂ (ha₂ ▸ ha₁ ▸ hlt)
  rw [finish?, hset]
  dsimp only [Option.bind_eq_bind, Option.bind_some]
  rw [hput]
  dsimp only [Option.bind_some]
  rw [hput']
  rw [Encoder.finish, ← hm₁, ← hm₂, ← hm₃]
  rfl

end Machine
end Encoder

/-- The registers of a decoder and those of an encoder stay in range.

A decoder starts with any data and makes any decisions in any contexts: no difference is below zero,
no renormalization takes more than fifteen shifts, and the size of the interval and the number of
bits ahead stay within their bounds. An encoder makes any decisions in any contexts and is completed
then: the upper end of its interval always fits into a register, no shift loses a bit of the lower
end, and there is no carry before the first byte. -/
theorem registers_inRange :
    (∀ (data : Bytes) (contexts : Contexts) (is : List Nat),
      ∃ start m, Decoder.Machine.ofBytes? data = some start ∧
        let run := (Decoder.ofBytes data).decodeAll contexts is
        start.decodeAll? (contexts.map Context.raw) is =
            some (run.1.map Bool.toNat, run.2.1.map Context.raw, m) ∧
          m.toDecoder = run.2.2 ∧ 0x8000 ≤ m.a.toNat ∧ m.a.toNat ≤ 0xFFFF ∧ m.ahead.toNat ≤ 8) ∧
    ∀ (contexts : Contexts) (decisions : List (Nat × Register)),
      let run := Encoder.start.encodeAll contexts (decisions.map (Prod.map id Register.odd))
      ∃ m, Encoder.Machine.start.encodeAll? (contexts.map Context.raw) decisions =
          some (run.1.map Context.raw, m) ∧
        m.toEncoder = run.2 ∧ 0x8000 ≤ m.a.toNat ∧ m.a.toNat ≤ 0xFFFF ∧
        1 ≤ m.free.toNat ∧ m.free.toNat ≤ 12 ∧ m.InRange ∧ m.finish? = some run.2.finish := by
  refine ⟨fun data contexts is => ?_, fun contexts decisions => ?_⟩
  · obtain ⟨start, hstart, hdata⟩ := Decoder.Machine.exists_ofBytes? data
    have hsteady : start.toDecoder.Steady := hdata ▸ (Decoder.ofBytes_spec data).1
    obtain ⟨m, hrun, hm, hsteady'⟩ := Decoder.Machine.exists_decodeAll? hsteady contexts is
    rw [hdata] at hrun hm
    exact ⟨start, m, hstart, hrun, hm, hsteady'.le_a, Nat.le_of_lt_succ hsteady'.a_lt,
      hsteady'.ahead_le⟩
  · intro run
    obtain ⟨m, hrun, hm⟩ :=
      Encoder.Machine.exists_encodeAll? (m := .start) Encoder.start_ready contexts decisions
    have hready : m.toEncoder.Ready := by
      rw [hm]
      exact (Encoder.reaches_encodeAll ..).ready Encoder.start_ready
    refine ⟨m, hrun, hm, hready.le_a, Nat.le_of_lt_succ hready.a_lt, hready.free_pos,
      hready.free_le, Encoder.Machine.inRange_of_bounded hready.toBounded hready.a_lt, ?_⟩
    rw [Encoder.Machine.finish?_eq hready, hm]
    rfl

end Bilevel.Mq

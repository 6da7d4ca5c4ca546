import Bilevel.Mq.Decoder
import Bilevel.Proofs.Mq.Completion

/-!
# A decoder in step with an encoder

A decoder that is given a code holds the distance of the code from the end of the interval that the
encoder had after the same decisions. It has taken up some bytes of the code; the bits that it
hasn't taken up count as ones. As the code lies in the interval of the encoder, so does what the
decoder has taken up, and the decoder finds the part of the interval that the encoder went on to.

## Main results

* `Synced.decode` — the next decision is decoded, and the decoder stays in step.
* `synced_start` — a decoder at the start of a code is in step with an encoder at its start.
-/

namespace Bilevel.Mq

open Code

/-! ## Bytes of a stream -/

namespace Code

variable {code p t : List UInt8} {b : UInt8}

theorem getD_bytes (h : (b :: p) <:+ code) : (bytes code ++ t).getD p.length 0xFF = b := by
  obtain ⟨r, rfl⟩ := h
  simp [bytes, List.getD_eq_getElem?_getD]

/-- The position of the marker. -/
def markerAt (code : List UInt8) : Nat := if room code = 7 then code.length - 1 else code.length

theorem getD_markerAt (code t : List UInt8) :
    (bytes code ++ t).getD (markerAt code) 0xFF = 0xFF ∧
    (bytes code ++ t).getD (markerAt code + 1) 0xFF = 0xAC := by
  cases code with
  | nil => simp [markerAt, bytes, room]
  | cons b p =>
    by_cases h : b = 0xFF
    · subst h
      simp [markerAt, bytes, room, List.getD_eq_getElem?_getD]
    · have hat : p.length + 1 + 1 - p.length = 2 := by omega
      have hnot : ¬p.length + 1 + 1 < p.length := by omega
      simp [markerAt, bytes, room_cons, h, List.getD_eq_getElem?_getD, List.getElem?_append, hat, hnot]

theorem exists_cons_suffix (h : p <:+ code) (hne : p ≠ code) : ∃ b, (b :: p) <:+ code := by
  obtain ⟨r, rfl⟩ := h
  rcases List.eq_nil_or_concat r with rfl | ⟨r', b, rfl⟩
  · simp at hne
  · exact ⟨b, r', by simp⟩

end Code

namespace Decoder

theorem byteAt_eq {d : Decoder} {l : List UInt8} (h : d.data.toList = l) (i : Nat) :
    d.byteAt i = (l.getD i 0xFF).toNat := by
  simp [byteAt, ← h, List.getD_eq_getElem?_getD]

variable {code p t : List UInt8} {b : UInt8} {d : Decoder}

/-- Taking up a coded byte replaces ones by its bits. -/
theorem takeByte_coded (total : Nat) (hdata : d.data.toList = bytes code ++ t)
    (hpos : d.position + 1 = p.length) (hb : (b :: p) <:+ code) (hclean : Clean code)
    (hc : d.c + (value p + 1) * 2 ^ 16 = total)
    (hle : (value (b :: p) + 1) * 2 ^ (16 - Code.room p) ≤ total)
    (hlt : total < (value (b :: p) + 1) * 2 ^ (16 - Code.room p) + 0x100000000) :
    ∃ c, d.takeByte = { d with position := d.position + 1, c, ahead := Code.room p } ∧
      c + (value (b :: p) + 1) * 2 ^ (16 - Code.room p) = total := by
  cases p with
  | nil => simp at hpos
  | cons h q =>
    have hq : d.position = q.length := by simpa using hpos
    have hhead : d.byteAt d.position = h.toNat := by
      rw [byteAt_eq hdata, hq, getD_bytes ((List.suffix_cons b _).trans hb)]
    have hnext : d.byteAt (d.position + 1) = b.toNat := by
      have := getD_bytes (t := t) hb
      rw [byteAt_eq hdata, hq]
      simpa using congrArg UInt8.toNat this
    have hval : value (b :: h :: q) = value (h :: q) * 2 ^ Code.room (h :: q) + b.toNat := rfl
    have hblt := b.toNat_lt
    by_cases hones : h = 0xFF
    · have hr : Code.room (h :: q) = 7 := by rw [room_cons, if_pos hones]
      have hmark : b.toNat ≤ 0x8F := (hclean.of_suffix hb).1 hr
      have hff : h.toNat = 0xFF := by rw [hones]; rfl
      refine ⟨(d.c + 0xFE00 + 0x100000000 - 0x200 * b.toNat) % 0x100000000, ?_, ?_⟩
      · simp only [takeByte, hhead, hnext, hff, if_true, hr, if_neg (Nat.not_lt.mpr hmark)]
      · simp only [hr, hval, Nat.reduceSub, Nat.reducePow] at hc hle hlt ⊢
        generalize value (h :: q) = v at *
        omega
    · have hr : Code.room (h :: q) = 8 := by rw [room_cons, if_neg hones]
      have hff : h.toNat ≠ 0xFF := fun he => hones (UInt8.toNat_inj.mp he)
      refine ⟨(d.c + 0xFF00 + 0x100000000 - 0x100 * b.toNat) % 0x100000000, ?_, ?_⟩
      · simp only [takeByte, hhead, hnext, hff, if_false, hr]
      · simp only [hr, hval, Nat.reduceSub, Nat.reducePow] at hc hle hlt ⊢
        generalize value (h :: q) = v at *
        omega

/-- At the marker nothing is taken up any more. -/
theorem takeByte_marker (hdata : d.data.toList = bytes code ++ t)
    (hpos : d.position = markerAt code) :
    d.takeByte = { d with synthetic := d.synthetic + 1, ahead := 8 } := by
  have hm := getD_markerAt code t
  have h0 : d.byteAt d.position = 0xFF := by rw [byteAt_eq hdata, hpos, hm.1]; rfl
  have h1 : d.byteAt (d.position + 1) = 0xAC := by rw [byteAt_eq hdata, hpos, hm.2]; rfl
  simp [takeByte, h0, h1]

/-- The first byte of the marker counts as a byte of ones, if it isn't a coded one. -/
theorem takeByte_last (hdata : d.data.toList = bytes code ++ t)
    (hpos : d.position + 1 = code.length) (hr : Code.room code = 8) (hc : d.c < 0x100000000) :
    d.takeByte = { d with position := d.position + 1, ahead := 8 } := by
  have hm := getD_markerAt code t
  have hat : markerAt code = code.length := by simp [markerAt, hr]
  have h1 : d.byteAt (d.position + 1) = 0xFF := by rw [byteAt_eq hdata, hpos, ← hat, hm.1]; rfl
  have h0 : d.byteAt d.position ≠ 0xFF := by
    cases code with
    | nil => simp at hpos
    | cons b p =>
      have hp : d.position = p.length := by simpa using hpos
      rw [byteAt_eq hdata, hp, getD_bytes List.suffix_rfl]
      intro he
      have hb : b = 0xFF := UInt8.toNat_inj.mp he
      rw [room_cons, if_pos hb] at hr
      omega
  have hsame : (d.c + 0xFF00 + 0x100000000 - 0x100 * 0xFF) % 0x100000000 = d.c := by omega
  simp only [takeByte, h0, h1, if_false, hsame]

end Decoder

/-! ## The invariant -/

/-- How far a decoder is in a code, of which it has taken up the bytes `p`. -/
inductive Place (code : List UInt8) (e : Encoder) (d : Decoder) (p : List UInt8) (u : Nat) : Prop
  /-- The last byte that was taken up is a coded one. -/
  | inside (position : d.position + 1 = p.length) (unit : d.ahead + u = 16)
      (synthetic : d.synthetic = 0)
  /-- All coded bytes and `k` more were taken up. -/
  | behind (k : Nat) (all : p = code) (position : d.position = markerAt code)
      (unit : bits code + 8 * k = e.doublings + 15 + d.ahead) (synthetic : d.synthetic ≤ k)

/-- The decoder has taken up the bytes `p`, the last bit of which has the place value `2 ^ u`. Its
register is the distance of these bytes, followed by ones, from the end of the interval. -/
structure Taken (code : List UInt8) (e : Encoder) (d : Decoder) (p : List UInt8) (u : Nat) :
    Prop where
  suffix : p <:+ code
  unit : u + bits p = e.doublings + 31
  c_eq : d.c + (value p + 1) * 2 ^ u = (e.low + e.a) * 2 ^ 16
  ahead_le : d.ahead ≤ 8
  place : Place code e d p u

/-- The decoder has decoded from the code, behind which come the bytes `t`, what the encoder has
encoded. -/
structure Synced (code t : List UInt8) (e : Encoder) (d : Decoder) : Prop where
  data_eq : d.data.toList = bytes code ++ t
  a_eq : d.a = e.a
  exists_taken : ∃ p u, Taken code e d p u

variable {code t p : List UInt8} {e : Encoder} {d : Decoder} {u : Nat}

/-- What was taken up, followed by ones, lies in every interval that contains the code. -/
theorem Encoder.Contains.bounds (hc : e.Contains code) (hsuf : p <:+ code)
    (hunit : u + bits p = e.doublings + 31) (hu : u ≤ 16 ∨ p = code)
    (hbits : bits e.code < bits p) :
    e.low * 2 ^ 16 < (value p + 1) * 2 ^ u ∧
      (value p + 1) * 2 ^ u ≤ (e.low + e.a) * 2 ^ 16 := by
  have hpos := Nat.two_pow_pos (bits p)
  constructor
  · have habove := hc.above p hsuf hbits
    rw [← hunit] at habove
    refine Nat.lt_of_mul_lt_mul_right (a := 2 ^ bits p) ?_
    calc e.low * 2 ^ 16 * 2 ^ bits p = e.low * 2 ^ (16 + bits p) := by ring
      _ < (value p + 1) * 2 ^ (u + bits p) := habove
      _ = (value p + 1) * 2 ^ u * 2 ^ bits p := by ring
  · rcases hu with hu | rfl
    · -- both sides are multiples of `2 ^ u`
      obtain ⟨k, hk⟩ := Nat.exists_eq_add_of_le hu
      have hlt : value p * 2 ^ u < (e.low + e.a) * 2 ^ 16 := by
        refine Nat.lt_of_mul_lt_mul_right (a := 2 ^ (bits p + bits code)) ?_
        calc value p * 2 ^ u * 2 ^ (bits p + bits code)
            = value p * 2 ^ bits code * 2 ^ (u + bits p) := by ring
          _ ≤ value code * 2 ^ bits p * 2 ^ (u + bits p) :=
            Nat.mul_le_mul_right _ (value_mono hsuf)
          _ < (value code + 1) * 2 ^ bits p * 2 ^ (u + bits p) := by
            refine Nat.mul_lt_mul_of_pos_right ?_ (Nat.two_pow_pos _)
            exact Nat.mul_lt_mul_of_pos_right (Nat.lt_succ_self _) hpos
          _ = (value code + 1) * 2 ^ (e.doublings + 31) * 2 ^ bits p := by rw [hunit]; ring
          _ ≤ (e.low + e.a) * 2 ^ (16 + bits code) * 2 ^ bits p :=
            Nat.mul_le_mul_right _ hc.below
          _ = (e.low + e.a) * 2 ^ 16 * 2 ^ (bits p + bits code) := by ring
      rw [hk, pow_add, Nat.mul_comm (2 ^ u), ← Nat.mul_assoc] at hlt ⊢
      exact Nat.mul_le_mul_right _ (Nat.lt_of_mul_lt_mul_right hlt)
    · have hbelow := hc.below
      rw [← hunit] at hbelow
      refine Nat.le_of_mul_le_mul_right ?_ hpos
      calc (value p + 1) * 2 ^ u * 2 ^ bits p = (value p + 1) * 2 ^ (u + bits p) := by ring
        _ ≤ (e.low + e.a) * 2 ^ (16 + bits p) := hbelow
        _ = (e.low + e.a) * 2 ^ 16 * 2 ^ bits p := by ring

theorem Encoder.Bounded.bits_le (h : e.Bounded) : bits e.code ≤ e.doublings := by
  have := doublings_add_free h
  have := h.free_le
  omega

namespace Taken

variable (ht : Taken code e d p u) (h : e.Bounded) (hc : e.Completes code)
include ht h hc

/-- What was taken up is enough to tell where in the interval the code lies. -/
theorem enough : (u ≤ 16 ∨ p = code) ∧ bits e.code < bits p := by
  have hunit := ht.unit
  have hlong := hc.long
  have hle := h.bits_le
  rcases ht.place with ⟨-, hu, -⟩ | ⟨k, rfl, -, -, -⟩
  · exact ⟨.inl (by omega), by omega⟩
  · exact ⟨.inr rfl, by omega⟩

theorem bounds : e.low * 2 ^ 16 < (value p + 1) * 2 ^ u ∧
    (value p + 1) * 2 ^ u ≤ (e.low + e.a) * 2 ^ 16 :=
  have henough := ht.enough h hc
  hc.toContains.bounds ht.suffix ht.unit henough.1 henough.2

theorem c_lt : d.c < e.a * 2 ^ 16 := by
  have hb := (ht.bounds h hc).1
  have hceq := ht.c_eq
  linarith

end Taken

/-! ## Doubling -/

section Double

variable (h : e.Bounded) (hc : e.Completes code)
include h hc

/-- Taking up a byte, when all bits that were taken up ahead are used. -/
theorem Synced.takeByte (hs : Synced code t e d) (ha : e.a ≤ 0x8000) (hahead : d.ahead = 0) :
    Synced code t e d.takeByte ∧ 0 < d.takeByte.ahead := by
  obtain ⟨p, u, ht⟩ := hs.exists_taken
  have hlt := ht.c_lt h hc
  have hlt32 : d.c < 0x100000000 := by omega
  have hunit := ht.unit
  rcases ht.place with ⟨hpos, hu, hsyn⟩ | ⟨k, rfl, hpos, hk, hsyn⟩
  · have hu16 : u = 16 := by omega
    subst hu16
    by_cases hall : p = code
    · subst hall
      rcases room_eq p with hr | hr
      · -- the last coded byte is the first one of the marker
        have hat : d.position = markerAt p := by simp [markerAt, hr]; omega
        rw [Decoder.takeByte_marker hs.data_eq hat]
        refine ⟨⟨hs.data_eq, hs.a_eq, p, 16, ht.suffix, hunit, ht.c_eq, le_rfl, ?_⟩,
          Nat.succ_pos 7⟩
        exact .behind 1 rfl hat (by simp only; omega) (by simp only; omega)
      · have hat : d.position + 1 = markerAt p := by simp [markerAt, hr]; omega
        rw [Decoder.takeByte_last hs.data_eq hpos hr hlt32]
        refine ⟨⟨hs.data_eq, hs.a_eq, p, 16, ht.suffix, hunit, ht.c_eq, le_rfl, ?_⟩,
          Nat.succ_pos 7⟩
        exact .behind 1 rfl hat (by simp only; omega) (by simp only; omega)
    · obtain ⟨b, hb⟩ := exists_cons_suffix ht.suffix hall
      have hr := room_le p
      have hr7 := seven_le_room p
      have hunit' : 16 - Code.room p + bits (b :: p) = e.doublings + 31 := by
        simp only [bits]
        omega
      have hle := h.bits_le
      have hbounds := hc.toContains.bounds hb hunit' (.inl (by omega)) (by omega)
      obtain ⟨c, htake, hceq⟩ := Decoder.takeByte_coded _ hs.data_eq hpos hb hc.clean ht.c_eq
        hbounds.2 (by linarith)
      rw [htake]
      refine ⟨⟨hs.data_eq, hs.a_eq, b :: p, _, hb, hunit', hceq, hr, ?_⟩, by simp only; omega⟩
      exact .inside (by simp [hpos]) (by simp only; omega) hsyn
  · rw [Decoder.takeByte_marker hs.data_eq hpos]
    refine ⟨⟨hs.data_eq, hs.a_eq, p, u, ht.suffix, hunit, ht.c_eq, le_rfl, ?_⟩,
          Nat.succ_pos 7⟩
    exact .behind (k + 1) rfl hpos (by simp only; omega) (by simp only; omega)

theorem Synced.double (hs : Synced code t e d) (hf : 0 < e.free) (ha : e.a ≤ 0x8000) :
    Synced code t e.double d.double := by
  have hready : ∃ d', Synced code t e d' ∧ 0 < d'.ahead ∧ d.double =
      { d' with a := 2 * d'.a, c := 2 * d'.c % 0x100000000, ahead := d'.ahead - 1 } := by
    by_cases hahead : d.ahead = 0
    · obtain ⟨hs', hpos⟩ := hs.takeByte h hc ha hahead
      exact ⟨_, hs', hpos, by simp [Decoder.double, hahead]⟩
    · exact ⟨d, hs, by omega, by simp [Decoder.double, hahead]⟩
  obtain ⟨d', hs', hpos, hdouble⟩ := hready
  obtain ⟨p, u, ht⟩ := hs'.exists_taken
  have hlt := ht.c_lt h hc
  have hunit := ht.unit
  have hceq := ht.c_eq
  have hle := ht.ahead_le
  have hlow := Encoder.low_double h hf
  have hda := Encoder.a_double h hf
  have hdd := Encoder.doublings_double h hf
  rw [hdouble]
  refine ⟨hs'.data_eq, by rw [hda, ← hs'.a_eq], p, u + 1, ht.suffix, by omega, ?_,
    by simp only; omega, ?_⟩
  · have hmod : 2 * d'.c % 0x100000000 = 2 * d'.c := by omega
    simp only [hmod, hlow, hda]
    calc 2 * d'.c + (value p + 1) * 2 ^ (u + 1) = 2 * (d'.c + (value p + 1) * 2 ^ u) := by ring
      _ = (2 * e.low + 2 * e.a) * 2 ^ 16 := by rw [hceq]; ring
  · rcases ht.place with ⟨hat, hu, hsyn⟩ | ⟨k, hall, hat, hk, hsyn⟩
    · exact .inside hat (by simp only; omega) hsyn
    · exact .behind k hall hat (by simp only [hdd]; omega) hsyn

end Double

theorem Synced.doubleTimes (hs : Synced code t e d) (h : e.Bounded) (hf : 0 < e.free) (n : Nat)
    (ha : e.a * 2 ^ n ≤ 0x10000) (hc : (e.doubleTimes n).Completes code) :
    Synced code t (e.doubleTimes n) (d.doubleTimes n) := by
  induction n generalizing e d with
  | zero => exact hs
  | succ n ih =>
    have hpow := Nat.one_le_two_pow (n := n)
    have hle : e.a * 2 ^ n ≤ 0x8000 := by rw [pow_succ, ← Nat.mul_assoc] at ha; omega
    have ha' : e.a ≤ 0x8000 := (Nat.le_mul_of_pos_right _ hpow).trans hle
    have hb := Encoder.bounded_double h hf ha'
    have hf' := Encoder.free_double_pos h hf
    have hda : e.double.a * 2 ^ n ≤ 0x10000 := by rw [Encoder.a_double h hf]; linarith
    have hcd := (Encoder.doubled_doubleTimes hb hf' n hda).completes hc
    have hlong := hcd.long
    rw [Encoder.doublings_double h hf] at hlong
    have hce : e.Completes code := ⟨hcd.toContains.of_double h hf, by omega⟩
    exact ih (hs.double h hce hf ha') hb hf' hda hc

/-- The decoder restores the size of its interval by as many doublings as the encoder. -/
theorem Synced.renormalize (hs : Synced code t e d) (h : e.Bounded) (hf : 0 < e.free)
    (ha : e.a < 0x10000) (hc : e.renormalize.Completes code) :
    Synced code t e.renormalize d.renormalize := by
  unfold Decoder.renormalize
  rw [hs.a_eq]
  exact hs.doubleTimes h hf _ (Encoder.renormalized_size h.a_pos ha).2.le hc

/-! ## Decisions -/

namespace Decoder

theorem renormalize_of_le {d : Decoder} (h : 0x8000 ≤ d.a) : d.renormalize = d := by
  have hlog : 15 ≤ d.a.log2 := (Nat.le_log2 (by omega)).mpr h
  rw [renormalize, Nat.sub_eq_zero_of_le hlog, doubleTimes]

/-- Go on to one of the two parts of the interval. -/
def narrow (d : Decoder) (upper : Bool) (qe : Nat) : Decoder :=
  if upper then { d with a := d.a - qe }
  else { d with c := d.c - 0x10000 * (d.a - qe), a := qe }

/-- If the code lies in the part of the interval that belongs to an outcome, this is decoded. -/
theorem decode_eq {d : Decoder} {cx : Context} {bit : Bool}
    (h : decide (d.c / 0x10000 < d.a - cx.estimate.qe) = cx.takesUpper d.a bit) :
    d.decode cx = (bit, cx.after d.a bit,
      (d.narrow (cx.takesUpper d.a bit) cx.estimate.qe).renormalize) := by
  have hqe := cx.qe_le
  have hbit : bit = cx.mps ∨ bit = !cx.mps := by cases bit <;> cases cx.mps <;> simp
  unfold Context.takesUpper at h
  unfold decode Context.after Context.takesUpper narrow
  by_cases hsmall : d.a - cx.estimate.qe < cx.estimate.qe
  · have h8 : ¬0x8000 ≤ d.a - cx.estimate.qe := by omega
    rcases hbit with rfl | rfl
    · have hup : ¬d.c / 0x10000 < d.a - cx.estimate.qe := by simpa [hsmall] using h
      simp [hup, hsmall, h8]
    · have hup : d.c / 0x10000 < d.a - cx.estimate.qe := by simpa [hsmall] using h
      simp [hup, hsmall, h8]
  · rcases hbit with rfl | rfl
    · have hup : d.c / 0x10000 < d.a - cx.estimate.qe := by simpa [hsmall] using h
      by_cases h8 : 0x8000 ≤ d.a - cx.estimate.qe
      · simp [hup, hsmall, h8, renormalize_of_le]
      · simp [hup, hsmall, h8]
    · have hup : ¬d.c / 0x10000 < d.a - cx.estimate.qe := by simpa [hsmall] using h
      simp [hup, hsmall]

end Decoder

/-- If a part of the interval contains the code, the decoder finds it. -/
theorem Synced.narrow (hs : Synced code t e d) (h : e.Bounded) {upper : Bool} {qe : Nat}
    (hpos : 0 < qe) (hlt : qe < e.a) (hc : (e.narrow upper qe).Completes code) :
    decide (d.c / 0x10000 < d.a - qe) = upper ∧
      Synced code t (e.narrow upper qe) (d.narrow upper qe) := by
  obtain ⟨p, u, ht⟩ := hs.exists_taken
  have hceq := ht.c_eq
  have hsize := hs.a_eq
  have hdoublings : (e.narrow upper qe).doublings = e.doublings := by simp [Encoder.doublings]
  have hunit : u + bits p = (e.narrow upper qe).doublings + 31 := by rw [hdoublings, ht.unit]
  have hce : e.Completes code := ⟨hc.toContains.of_narrow _ hpos hlt, hdoublings ▸ hc.long⟩
  obtain ⟨henough, hbits⟩ := ht.enough h hce
  obtain ⟨hlow, hhigh⟩ := hc.toContains.bounds ht.suffix hunit henough (by simpa using hbits)
  have hplace : ∀ {c a : Nat}, Place code (e.narrow upper qe) { d with c, a } p u := by
    intro c a
    rcases ht.place with ⟨hat, hu, hsyn⟩ | ⟨k, hall, hat, hk, hsyn⟩
    · exact .inside hat hu hsyn
    · exact .behind k hall hat (by simp only [hdoublings]; omega) hsyn
  cases upper with
  | true =>
    have hl : (e.narrow true qe).low = e.low + qe := Nat.add_assoc _ _ _ |>.symm
    have ha : (e.narrow true qe).a = e.a - qe := rfl
    have hsum : e.low + qe + (e.a - qe) = e.low + e.a := by omega
    rw [hl] at hlow
    refine ⟨?_, hs.data_eq, by simp only [Decoder.narrow, ha, hsize, if_true], p, u, ht.suffix,
      hunit, ?_, ht.ahead_le, hplace⟩
    · rw [decide_eq_true_iff, Nat.div_lt_iff_lt_mul (by decide)]
      omega
    · rw [hl, ha, hsum]
      exact hceq
  | false =>
    have hl : (e.narrow false qe).low = e.low := rfl
    have ha : (e.narrow false qe).a = qe := rfl
    rw [hl, ha] at hhigh
    refine ⟨?_, hs.data_eq, rfl, p, u, ht.suffix, hunit, ?_, ht.ahead_le, hplace⟩
    · rw [decide_eq_false_iff_not, Nat.div_lt_iff_lt_mul (by decide)]
      omega
    · rw [hl, ha]
      simp only [Decoder.narrow, Bool.false_eq_true, if_false]
      omega

/-- A decoder in step with an encoder decodes what the encoder encodes next. -/
theorem Synced.decode (hs : Synced code t e d) (h : e.Ready) (cx : Context) (bit : Bool)
    (hc : (e.encode cx bit).2.Completes code) :
    ∃ d', d.decode cx = (bit, (e.encode cx bit).1, d') ∧
      Synced code t (e.encode cx bit).2 d' := by
  have hlt := Encoder.qe_lt_a h cx
  obtain ⟨hside, hsn⟩ := hs.narrow h.toBounded cx.qe_pos hlt (hc.of_renormalize h)
  rw [Encoder.encode_eq] at hc ⊢
  rw [← hs.a_eq] at hside
  refine ⟨_, hs.a_eq ▸ Decoder.decode_eq hside, ?_⟩
  rw [← hs.a_eq] at hsn hc ⊢
  refine hsn.renormalize (Encoder.bounded_narrow _ cx.qe_pos hlt h.toBounded) ?_ ?_ hc
  · rw [Encoder.free_narrow]
    exact h.free_pos
  · exact (Encoder.a_narrow _ cx.qe_pos hlt).2.trans h.a_lt

theorem Synced.decodeAt (hs : Synced code t e d) (h : e.Ready) (contexts : Contexts) (i : Nat)
    (bit : Bool) (hc : (e.encodeAt contexts i bit).2.Completes code) :
    ∃ d', d.decodeAt contexts i = (bit, (e.encodeAt contexts i bit).1, d') ∧
      Synced code t (e.encodeAt contexts i bit).2 d' := by
  obtain ⟨d', hd, hs'⟩ := hs.decode h (contexts.lookup i) bit hc
  exact ⟨d', by simp [Decoder.decodeAt, Encoder.encodeAt, hd], hs'⟩

/-- A decoder in step with an encoder hasn't run out of data. -/
theorem Synced.checkData (hs : Synced code t e d) (hc : e.Completes code) :
    d.checkData = .ok () := by
  obtain ⟨p, u, ht⟩ := hs.exists_taken
  have hlong := hc.long
  have hle := ht.ahead_le
  have hsyn : d.synthetic ≤ 2 := by
    rcases ht.place with ⟨-, -, hsyn⟩ | ⟨k, -, -, hk, hsyn⟩ <;> omega
  have hnot : d.exhausted = false := by
    rw [Decoder.exhausted, Decoder.syntheticLimit, decide_eq_false_iff_not]
    omega
  simp [Decoder.checkData, hnot]

/-! ## The start -/

theorem exists_two_suffix (h : 2 ≤ code.length) : ∃ b b', [b, b'] <:+ code := by
  obtain ⟨b', hb'⟩ := exists_cons_suffix (List.nil_suffix (l := code)) (by rintro rfl; simp at h)
  obtain ⟨b, hb⟩ := exists_cons_suffix hb' (by rintro rfl; simp at h)
  exact ⟨b, b', hb⟩

/-- A decoder at the start of a code that completes an encoder at its start is in step with it. -/
theorem synced_start (hc : Encoder.start.Completes code) {data : Bytes}
    (hdata : data.toList = bytes code ++ t) : Synced code t Encoder.start (Decoder.ofBytes data) := by
  obtain ⟨b, b', hb⟩ := exists_two_suffix hc.two_le
  have hr := room_le [b']
  have hr7 := seven_le_room [b']
  have hb' : [b'] <:+ code := (List.suffix_cons b _).trans hb
  have hbits : bits [b, b'] = 8 + Code.room [b'] := by simp [bits, Code.room]
  have hunit : 23 - Code.room [b'] + bits [b, b'] = Encoder.start.doublings + 31 := by
    rw [hbits, Encoder.start_doublings]
    omega
  have hcode : bits Encoder.start.code < bits [b, b'] := by
    rw [hbits, Encoder.code_of_fresh rfl, bits]
    omega
  have hhigh := (hc.toContains.bounds hb hunit (.inl (by omega)) hcode).2
  have hlow : Encoder.start.low = 0 := by simp [Encoder.low, Encoder.code, Encoder.start, value]
  have ha : Encoder.start.a = 0x8000 := rfl
  rw [hlow, ha, show 23 - Code.room [b'] = 16 - Code.room [b'] + 7 by omega, pow_add,
    ← Nat.mul_assoc] at hhigh
  -- the first byte is taken up whole, and the second one as any other
  let first : Decoder := ⟨data, 0, 0x10000 * (255 - b'.toNat), 0, 0, 0⟩
  have hfirst : data.getD 0 0xFF = b' := by
    have := getD_bytes (t := t) hb'
    rw [← hdata] at this
    simpa [List.getD_eq_getElem?_getD] using this
  have hlt := b'.toNat_lt
  have hvalue : value [b'] = b'.toNat := by simp [value]
  obtain ⟨c, htake, hceq⟩ := Decoder.takeByte_coded (d := first) 0x1000000 hdata rfl hb
    hc.clean (by simp only [first, hvalue]; omega) (by linarith) (by omega)
  have hof : Decoder.ofBytes data = { first.takeByte with
      c := 0x80 * first.takeByte.c % 0x100000000, ahead := first.takeByte.ahead - 7,
      a := 0x8000 } := by
    simp only [Decoder.ofBytes, Decoder.byteAt, hfirst, first]
  rw [hof, htake]
  refine ⟨hdata, rfl, [b, b'], 23 - Code.room [b'], hb, hunit, ?_, by simp only; omega,
    .inside rfl (by simp only; omega) rfl⟩
  have hmod : 0x80 * c % 0x100000000 = 0x80 * c := by omega
  rw [hlow, ha, show 23 - Code.room [b'] = 16 - Code.room [b'] + 7 by omega, pow_add]
  simp only [hmod]
  linarith

/-- A decoder of all that an encoder has put out starts in step with it. -/
theorem synced_ofBytes {data : Bytes} (hreach : Encoder.start.Reaches e)
    (hdata : data.toList = e.finish.toList ++ t) :
    Synced e.flushed.code t Encoder.start (Decoder.ofBytes data) := by
  rw [Encoder.finish_eq] at hdata
  have hc := Encoder.completes_flushed (hreach.ready Encoder.start_ready)
  exact synced_start (hreach.completes Encoder.start_ready hc) hdata

end Bilevel.Mq

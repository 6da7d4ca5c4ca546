import Bilevel.Proofs.Bits.Reads
import Mathlib.Tactic.Ring

/-!
# Numbers of bits, in pieces

A number of some bits lies across bytes, at any place in the first and in the last of them. It can be
put together bit by bit, or from pieces: of every byte as many bits as are wanted and as there are
left in it, moved to the low end of the byte and cut off there. All ways give the same number, as
long as it has at most 32 bits, and fail at the same places.

## Main definitions

* `Reader.readEach` — a number from single bits.
* `Reader.readPieces` — a number from pieces of bytes, in registers of 64 bits.

## Main results

* `Reader.readEach_eq`, `Reader.readPieces_eq` — both put the bits at the position behind those that
  are there.
-/

namespace Bilevel

open Bits

namespace Reader

/-- The next `count` bits, one by one, behind the bits of `n`. -/
def readEach : (count n : Nat) → Reading Nat
  | 0, n => pure n
  | count + 1, n => do
    let bit ← readBit
    readEach count (2 * n + bit.toNat)

/-- The lowest `count` bits of a byte without its last `shift` bits. -/
def piece (byte : UInt8) (shift count : Nat) : UInt64 :=
  (byte.toUInt64 >>> UInt64.ofNat shift) &&& (1 <<< UInt64.ofNat count - 1)

/-- The next `count` bits behind the bits of `n`, taken from one byte after the other. -/
def readPieces (count : Nat) (n : UInt64) (r : Reader) : Except DecodeError (UInt32 × Reader) :=
  if count = 0 then .ok (n.toUInt32, r)
  else
    let left := 8 - r.position % 8
    let taken := min count left
    match r.data[r.position / 8]? with
    | none => .error .unexpectedEnd
    | some byte =>
      readPieces (count - taken) (n <<< UInt64.ofNat taken ||| piece byte (left - taken) taken)
        (r.skip taken)
termination_by count

/-! ## Parts of a number -/

@[simp] theorem window_zero (r : Reader) : r.window 0 = 0 := Nat.mod_one _

/-- The first bits of a number, and those behind them. -/
theorem window_add {r : Reader} {m n : Nat} (h : r.position + (m + n) ≤ 8 * r.data.size) :
    r.window (m + n) = r.window m * 2 ^ n + (r.skip m).window n := by
  have hlow : (r.skip m).window n < 2 ^ n := window_lt _ _
  apply Nat.eq_of_testBit_eq
  intro i
  rw [Nat.mul_comm, Nat.testBit_two_pow_mul_add _ hlow]
  by_cases hi : i < m + n
  · rw [testBit_window h hi]
    split
    · next hn =>
      rw [testBit_window (by simp only [position_skip, data_skip]; omega) hn, data_skip,
        position_skip]
      congr 1
      omega
    · rw [testBit_window (by omega) (by omega)]
      congr 1
      omega
  · rw [if_neg (by omega)]
    have hpow := Nat.pow_le_pow_right (show 0 < 2 by decide) (show m ≤ i - n by omega)
    have hpow' := Nat.pow_le_pow_right (show 0 < 2 by decide) (show m + n ≤ i by omega)
    rw [Nat.testBit_lt_two_pow ((window_lt r m).trans_le hpow),
      Nat.testBit_lt_two_pow ((window_lt r (m + n)).trans_le hpow')]

theorem window_one {r : Reader} (h : r.position < 8 * r.data.size) :
    r.window 1 = (bitAt r.data r.position).toNat := by
  have hbit : (r.window 1).testBit 0 = bitAt r.data r.position :=
    testBit_window (r := r) (i := 0) h Nat.one_pos
  have hlt : r.window 1 < 2 := window_lt r 1
  rw [← hbit, Nat.toNat_testBit]
  omega

/-- Bits of one byte: those behind them are left out, and those before them cut off. -/
theorem window_eq_piece {r : Reader} {count : Nat} {byte : UInt8}
    (hbyte : r.data[r.position / 8]? = some byte) (hcount : r.position % 8 + count ≤ 8) :
    r.window count = byte.toNat / 2 ^ (8 - r.position % 8 - count) % 2 ^ count := by
  obtain ⟨hlt, hget⟩ := Array.getElem?_eq_some_iff.mp hbyte
  apply Nat.eq_of_testBit_eq
  intro i
  rw [Nat.testBit_mod_two_pow, Nat.testBit_div_two_pow]
  by_cases hi : i < count
  · have hplace : r.position + (count - 1 - i) =
        8 * (r.position / 8) + (r.position % 8 + (count - 1 - i)) := by omega
    rw [testBit_window (by omega) hi, hplace, bitAt_eq hlt (by omega), hget,
      ofByte_eq_testBit (by omega), decide_eq_true hi, Bool.true_and]
    congr 1
    omega
  · have hpow := Nat.pow_le_pow_right (show 0 < 2 by decide) (Nat.not_lt.mp hi)
    rw [Nat.testBit_lt_two_pow ((window_lt r count).trans_le hpow), decide_eq_false hi,
      Bool.false_and]

/-! ## Single bits -/

theorem readEach_eq {r : Reader} (count n : Nat) (hle : r.position ≤ 8 * r.data.size) :
    readEach count n r =
      if r.position + count ≤ 8 * r.data.size then .ok (n * 2 ^ count + r.window count, r.skip count)
      else .error .unexpectedEnd := by
  induction count generalizing r n with
  | zero =>
    rw [Nat.add_zero, if_pos hle, window_zero, pow_zero, Nat.mul_one]
    rfl
  | succ count ih =>
    rw [readEach]
    by_cases hlt : r.position < 8 * r.data.size
    · have hbit : readBit r = .ok (bitAt r.data r.position, r.skip 1) := if_pos hlt
      have hroom : (r.skip 1).position + count = r.position + (count + 1) := by
        rw [position_skip]
        omega
      rw [run_bind_ok hbit, ih (r := r.skip 1) _ hlt, hroom, data_skip]
      split
      · next h =>
        rw [Nat.add_comm count 1] at h ⊢
        rw [window_add h, window_one hlt, skip_skip, pow_add]
        congr 2
        ring
      · rfl
    · have hbit : readBit r = .error .unexpectedEnd := if_neg hlt
      rw [if_neg (by omega)]
      exact run_bind_eq_error.mpr (.inl hbit)

/-! ## Pieces of bytes -/

theorem toNat_shiftLeft {n : UInt64} {k : Nat} (hk : k < 64) (h : n.toNat * 2 ^ k < 2 ^ 64) :
    (n <<< UInt64.ofNat k).toNat = n.toNat * 2 ^ k := by
  rw [UInt64.toNat_shiftLeft, UInt64.toNat_ofNat', Nat.mod_eq_of_lt (by omega : k < 2 ^ 64),
    Nat.mod_eq_of_lt hk, Nat.shiftLeft_eq, Nat.mod_eq_of_lt h]

theorem toNat_piece (byte : UInt8) {shift count : Nat} (hs : shift < 8) (hc : count ≤ 8) :
    (piece byte shift count).toNat = byte.toNat / 2 ^ shift % 2 ^ count := by
  have hpow : 2 ^ count ≤ 2 ^ 8 := Nat.pow_le_pow_right (by decide) hc
  have hpos := Nat.two_pow_pos count
  have hone : (1 <<< UInt64.ofNat count : UInt64).toNat = 2 ^ count := by
    rw [toNat_shiftLeft (by omega) (by simp; omega)]
    simp
  have hmask : (1 <<< UInt64.ofNat count - 1 : UInt64).toNat = 2 ^ count - 1 := by
    rw [UInt64.toNat_sub_of_le _ _ (UInt64.le_iff_toNat_le.mpr (hone ▸ hpos)), hone]
    rfl
  have hshift : (UInt64.ofNat shift).toNat % 64 = shift := by
    rw [UInt64.toNat_ofNat']
    omega
  rw [piece, UInt64.toNat_and, hmask, Nat.and_two_pow_sub_one_eq_mod, UInt64.toNat_shiftRight,
    hshift, Nat.shiftRight_eq_div_pow, UInt8.toNat_toUInt64]

/-- A register with room for some more bits takes them up behind those that it has. -/
theorem toNat_behind {n low : UInt64} {k : Nat} (hk : k < 64) (hn : n.toNat * 2 ^ k < 2 ^ 64)
    (hlow : low.toNat < 2 ^ k) :
    (n <<< UInt64.ofNat k ||| low).toNat = n.toNat * 2 ^ k + low.toNat := by
  rw [UInt64.toNat_or, toNat_shiftLeft hk hn, Nat.mul_comm,
    Nat.two_pow_add_eq_or_of_lt hlow]

theorem readPieces_eq {r : Reader} {count : Nat} {n : UInt64} (hcount : count ≤ 32)
    (hn : n.toNat < 2 ^ (32 - count)) (hle : r.position ≤ 8 * r.data.size) :
    readPieces count n r =
      if r.position + count ≤ 8 * r.data.size then
        .ok (.ofNat (n.toNat * 2 ^ count + r.window count), r.skip count)
      else .error .unexpectedEnd := by
  fun_induction readPieces count n r with
  | case1 n r =>
    rw [Nat.add_zero, if_pos hle, window_zero, pow_zero, Nat.mul_one]
    rfl
  | case2 count n r hsome hnone =>
    have hend : r.data.size ≤ r.position / 8 := Array.getElem?_eq_none_iff.mp hnone
    rw [if_neg (by omega)]
  | case3 count n r hsome left taken byte hbyte ih =>
    obtain ⟨hlt, -⟩ := Array.getElem?_eq_some_iff.mp hbyte
    obtain ⟨rest, hrest⟩ : ∃ rest, count = taken + rest := ⟨count - taken, by omega⟩
    have htaken : 0 < taken ∧ taken ≤ 8 ∧ r.position % 8 + taken ≤ 8 := by omega
    have hpiece : (piece byte (left - taken) taken).toNat = r.window taken := by
      rw [toNat_piece byte (by omega) htaken.2.1, window_eq_piece hbyte htaken.2.2]
    have hlow := window_lt r taken
    -- what is taken up finds room in front of what is still to be read
    have hbound : (n.toNat + 1) * 2 ^ taken ≤ 2 ^ (32 - rest) := by
      rw [show 32 - rest = 32 - count + taken by omega, pow_add]
      exact Nat.mul_le_mul_right _ hn
    have hpow : 2 ^ (32 - rest) ≤ 2 ^ 32 := Nat.pow_le_pow_right (by decide) (by omega)
    rw [Nat.add_mul, Nat.one_mul] at hbound
    have hbehind := toNat_behind (n := n) (by omega) (by omega) (hpiece ▸ hlow)
    rw [hpiece] at hbehind
    rw [show count - taken = rest by omega] at ih ⊢
    rw [ih (by omega) (by rw [hbehind]; omega) (by rw [position_skip, data_skip]; omega), hbehind,
      hrest, position_skip, data_skip, skip_skip, Nat.add_assoc]
    split
    · next h =>
      rw [window_add h, pow_add, Nat.add_mul, Nat.mul_assoc, Nat.add_assoc]
    · rfl

/-! ## All ways -/

section

variable {r : Reader} {count : Nat}

theorem readBits_eq_readEach (count : Nat) (hle : r.position ≤ 8 * r.data.size) :
    readBits count r = readEach count 0 r := by
  rw [readEach_eq count 0 hle, Nat.zero_mul, Nat.zero_add]
  rfl

theorem readPieces_eq_readBits (hcount : count ≤ 32) (hle : r.position ≤ 8 * r.data.size) :
    (readPieces count 0 r).map (Prod.map UInt32.toNat id) = readBits count r := by
  have hpow : 2 ^ count ≤ 2 ^ 32 := Nat.pow_le_pow_right (by decide) hcount
  have hmod := Nat.mod_eq_of_lt ((window_lt r count).trans_le hpow)
  rw [readPieces_eq hcount (Nat.two_pow_pos _) hle, UInt64.toNat_zero, Nat.zero_mul, Nat.zero_add,
    readBits]
  split
  · simp only [Except.map, Prod.map, UInt32.toNat_ofNat', id, hmod]
    rfl
  · rfl

theorem exists_readBits (h : count ≤ r.bitsLeft) (hle : r.position ≤ 8 * r.data.size) :
    ∃ n < 2 ^ count, readBits count r = .ok (n, r.skip count) := by
  unfold bitsLeft at h
  exact ⟨_, window_lt r count, if_pos (by omega)⟩

theorem readBits_of_bitsLeft_lt (h : r.bitsLeft < count) :
    readBits count r = .error .unexpectedEnd := by
  unfold bitsLeft at h
  exact if_neg (by omega)

end

end Reader
end Bilevel

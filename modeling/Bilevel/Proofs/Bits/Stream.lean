import Bilevel.Bits.Reader
import Bilevel.Bits.Writer
import Mathlib.Data.List.Induction
import Mathlib.Tactic.Ring

/-!
# Byte strings as bits

A byte string is a list of bits, eight for each byte, and a number of some bytes is made of all
their bits.
-/

namespace Bilevel

namespace Bits

/-- The first bits of a byte string. -/
def firstBits (data : Bytes) (count : Nat) : List Bool := (List.range count).map (bitAt data)

/-- All bits of a byte string. -/
def toList (data : Bytes) : List Bool := firstBits data (8 * data.size)

@[simp] theorem length_firstBits (data : Bytes) (count : Nat) :
    (firstBits data count).length = count := by
  simp [firstBits]

@[simp] theorem length_toList (data : Bytes) : (toList data).length = 8 * data.size := by
  simp [toList]

theorem firstBits_succ (data : Bytes) (count : Nat) :
    firstBits data (count + 1) = firstBits data count ++ [bitAt data count] := by
  simp [firstBits, List.range_succ]

theorem firstBits_congr {a b : Bytes} {count : Nat} (h : ∀ i < count, bitAt a i = bitAt b i) :
    firstBits a count = firstBits b count :=
  List.map_congr_left fun i hi => h i (List.mem_range.mp hi)

theorem getElem?_firstBits {data : Bytes} {count i : Nat} :
    (firstBits data count)[i]? = if i < count then some (bitAt data i) else none := by
  by_cases h : i < count
  · simp [firstBits, h]
  · simp [firstBits, h]

theorem take_firstBits {data : Bytes} {m n : Nat} (h : m ≤ n) :
    (firstBits data n).take m = firstBits data m := by
  simp [firstBits, ← List.map_take, List.take_range, Nat.min_eq_left h]

theorem bitAt_append (a b : Bytes) (i : Nat) :
    bitAt (a ++ b) i = if i < 8 * a.size then bitAt a i else bitAt b (i - 8 * a.size) := by
  unfold bitAt
  split
  · have h : i / 8 < a.size := by omega
    simp [Array.getElem?_append, h]
  · have h : ¬i / 8 < a.size := by omega
    have hd : (i - 8 * a.size) / 8 = i / 8 - a.size := by omega
    have hm : (i - 8 * a.size) % 8 = i % 8 := by omega
    simp [Array.getElem?_append, h, hd, hm]

theorem toList_append (a b : Bytes) : toList (a ++ b) = toList a ++ toList b := by
  apply List.ext_getElem?
  intro i
  rw [List.getElem?_append, length_toList]
  simp only [toList, getElem?_firstBits, bitAt_append, Array.size_append]
  by_cases h : i < 8 * a.size
  · have h' : i < 8 * (a.size + b.size) := by omega
    simp [h, h']
  · have h' : i - 8 * a.size < 8 * b.size ↔ i < 8 * (a.size + b.size) := by omega
    simp [h, h']

theorem bitAt_extract {data : Bytes} {start stop i : Nat} (hstop : stop ≤ data.size)
    (hi : i < 8 * (stop - start)) : bitAt (data.extract start stop) i = bitAt data (8 * start + i) := by
  have hd : (8 * start + i) / 8 = start + i / 8 := by omega
  have hm : (8 * start + i) % 8 = i % 8 := by omega
  have hlt : i / 8 < stop - start := by omega
  have hmin : min stop data.size = stop := Nat.min_eq_left hstop
  unfold bitAt
  rw [hd, hm]
  have hget : start + i / 8 < data.size := by omega
  simp [hmin, hlt, hget]

theorem toList_extract {data : Bytes} {start stop : Nat} (h : start ≤ stop)
    (hstop : stop ≤ data.size) : toList (data.extract start stop) =
      ((toList data).drop (8 * start)).take (8 * (stop - start)) := by
  apply List.ext_getElem?
  intro i
  have hsize : (data.extract start stop).size = stop - start := by
    simp [Nat.min_eq_left hstop]
  rw [List.getElem?_take, List.getElem?_drop]
  simp only [toList, getElem?_firstBits, hsize]
  by_cases hi : i < 8 * (stop - start)
  · have hlt : 8 * start + i < 8 * data.size := by omega
    rw [if_pos hi, if_pos hi, if_pos hlt, bitAt_extract hstop hi]
  · rw [if_neg hi, if_neg hi]

/-- A byte string is determined by its bits. -/
theorem toList_inj {a b : Bytes} (h : toList a = toList b) : a = b := by
  have hs : a.size = b.size := by
    have hl := congrArg List.length h
    rw [length_toList, length_toList] at hl
    omega
  refine bytes_ext hs fun i hi => ?_
  have hget := congrArg (·[i]?) h
  simp only [toList, getElem?_firstBits] at hget
  rw [if_pos hi, if_pos (hs ▸ hi)] at hget
  exact Option.some.inj hget

/-! ## Numbers -/

@[simp] theorem length_lowBits (count n : Nat) : (lowBits count n).length = count := by
  induction count with
  | zero => rfl
  | succ count ih => simp [lowBits, ih]

theorem getElem?_lowBits {count n i : Nat} (h : i < count) :
    (lowBits count n)[i]? = some (n.testBit (count - 1 - i)) := by
  induction count generalizing i with
  | zero => omega
  | succ count ih =>
    cases i with
    | zero => simp [lowBits]
    | succ i =>
      rw [lowBits, List.getElem?_cons_succ, ih (by omega)]
      congr 2
      omega

/-- The low bits of a number are those of the number without its last bits, and these. -/
theorem lowBits_add (m n c : Nat) : lowBits (m + n) c = lowBits m (c / 2 ^ n) ++ lowBits n c := by
  induction m with
  | zero => rw [Nat.zero_add]; rfl
  | succ m ih =>
    rw [Nat.succ_add, lowBits, lowBits, ih, List.cons_append, Nat.testBit_div_two_pow,
      Nat.add_comm m n]

theorem lowBits_inj {count a b : Nat} (ha : a < 2 ^ count) (hb : b < 2 ^ count) :
    lowBits count a = lowBits count b ↔ a = b := by
  refine ⟨fun h => Nat.eq_of_testBit_eq fun i => ?_, congrArg _⟩
  by_cases hi : i < count
  · have hget := congrArg (·[count - 1 - i]?) h
    simp only [getElem?_lowBits (show count - 1 - i < count by omega), Option.some.injEq] at hget
    rwa [show count - 1 - (count - 1 - i) = i by omega] at hget
  · have hpow : 2 ^ count ≤ 2 ^ i := Nat.pow_le_pow_right (by decide) (by omega)
    rw [Nat.testBit_lt_two_pow (ha.trans_le hpow), Nat.testBit_lt_two_pow (hb.trans_le hpow)]

/-- Bits begin with others if these are left when the last bits are dropped. -/
theorem lowBits_prefix_iff {m n a b : Nat} (h : m ≤ n) (ha : a < 2 ^ m) (hb : b < 2 ^ n) :
    lowBits m a <+: lowBits n b ↔ a = b / 2 ^ (n - m) := by
  obtain ⟨d, rfl⟩ := Nat.exists_eq_add_of_le h
  have hdiv : b / 2 ^ d < 2 ^ m := Nat.div_lt_of_lt_mul (by rwa [← Nat.pow_add, Nat.add_comm d])
  rw [Nat.add_sub_cancel_left, lowBits_add, List.prefix_iff_eq_take, length_lowBits,
    List.take_left' (length_lowBits m _), lowBits_inj ha hdiv]

theorem ofByte_eq_testBit {byte : UInt8} {k : Nat} (h : k < 8) :
    ofByte byte k = byte.toNat.testBit (7 - k) := by
  simp [ofByte, BitVec.getMsbD, h, BitVec.getLsbD]

end Bits

open Bits

@[simp] theorem bigEndian_empty : bigEndian #[] = 0 := rfl

theorem bigEndian_push (bytes : Bytes) (byte : UInt8) :
    bigEndian (bytes.push byte) = 256 * bigEndian bytes + byte.toNat := by
  simp [bigEndian]

/-- Byte strings grow at their ends. -/
theorem bytes_induction {motive : Bytes → Prop} (empty : motive #[])
    (push : ∀ bytes byte, motive bytes → motive (bytes.push byte)) (bytes : Bytes) :
    motive bytes := by
  obtain ⟨l⟩ := bytes
  induction l using List.reverseRecOn with
  | nil => exact empty
  | append_singleton l byte ih => simpa using push _ byte ih

theorem bigEndian_lt (bytes : Bytes) : bigEndian bytes < 2 ^ (8 * bytes.size) := by
  induction bytes using bytes_induction with
  | empty => simp
  | push bytes byte ih =>
    have hlt := byte.toNat_lt
    rw [bigEndian_push, Array.size_push, Nat.mul_succ, pow_add]
    omega

theorem testBit_bigEndian {bytes : Bytes} {i : Nat} (h : i < 8 * bytes.size) :
    (bigEndian bytes).testBit i = bitAt bytes (8 * bytes.size - 1 - i) := by
  induction bytes using bytes_induction generalizing i with
  | empty => simp at h
  | push bytes byte ih =>
    rw [Array.size_push] at h
    have hbit := Nat.testBit_two_pow_mul_add (bigEndian bytes) (show byte.toNat < 2 ^ 8 from
      byte.toNat_lt) i
    rw [bigEndian_push, show 256 * bigEndian bytes = 2 ^ 8 * bigEndian bytes from rfl, hbit,
      ← Array.append_singleton, bitAt_append, Array.size_append]
    split
    · next hi =>
      rw [if_neg (by simp; omega)]
      have hk : 8 * (bytes.size + #[byte].size) - 1 - i - 8 * bytes.size = 7 - i := by simp; omega
      rw [hk, bitAt, show (7 - i) / 8 = 0 by omega, show (7 - i) % 8 = 7 - i by omega,
        Array.getD_eq_getD_getElem?]
      rw [show (#[byte][0]?.getD 0) = byte from rfl, ofByte_eq_testBit (by omega)]
      congr 1
      omega
    · next hi =>
      rw [if_pos (by simp; omega), ih (by omega)]
      congr 1
      simp
      omega

theorem size_toBigEndian (count n : Nat) : (toBigEndian count n).size = count := by
  induction count generalizing n with
  | zero => rfl
  | succ count ih => simp [toBigEndian, ih]

theorem bigEndian_toBigEndian {count n : Nat} (h : n < 256 ^ count) :
    bigEndian (toBigEndian count n) = n := by
  induction count generalizing n with
  | zero =>
    rw [pow_zero] at h
    simp [toBigEndian]
    omega
  | succ count ih =>
    rw [pow_succ] at h
    rw [toBigEndian, bigEndian_push, ih (by omega), UInt8.toNat_ofNat']
    omega

end Bilevel

import Bilevel.Proofs.Mq.Checked
import Mathlib.Data.Nat.Bitwise

/-!
# Registers

A register holds a number of 32 bits. Its operations have no result here if the exact one doesn't fit,
so that a computation with a result never left the range of its registers.

## Main definitions

* `Register.sub?`, `Register.add?`, `Register.shift?` — operations that need room.
* `Register.LargeAfter` — how often an interval has to be doubled.

## Main results

* `Register.exists_sub?`, `Register.exists_add?`, `Register.exists_shift?` — what they give where
  there is room.
* `Register.exists_sub_qe?` — an estimate is always smaller than the interval.
-/

namespace Bilevel.Mq

/-- A number of 32 bits. -/
abbrev Register := UInt32

namespace Register

/-- A difference that isn't below zero. -/
def sub? (x y : Register) : Option Register := if y ≤ x then some (x - y) else none

/-- A sum that fits. -/
def add? (x y : Register) : Option Register :=
  if x.toNat + y.toNat < 2 ^ 32 then some (x + y) else none

/-- A shift that loses no bit. -/
def shift? (x n : Register) : Option Register :=
  if x.toNat * 2 ^ n.toNat < 2 ^ 32 then some (x <<< n) else none

/-- Whether bit 15 is set. -/
def large (x : Register) : Bool := x &&& 0x8000 ≠ 0

def odd (x : Register) : Bool := x.toNat.testBit 0

variable {x y : Register}

theorem exists_sub? (h : y.toNat ≤ x.toNat) : ∃ z, sub? x y = some z ∧ z.toNat = x.toNat - y.toNat :=
  ⟨_, if_pos (UInt32.le_iff_toNat_le.mpr h),
    UInt32.toNat_sub_of_le _ _ (UInt32.le_iff_toNat_le.mpr h)⟩

theorem exists_add? (h : x.toNat + y.toNat < 2 ^ 32) :
    ∃ z, add? x y = some z ∧ z.toNat = x.toNat + y.toNat := by
  refine ⟨_, if_pos h, ?_⟩
  rw [UInt32.toNat_add, Nat.mod_eq_of_lt h]

/-- A shift that may lose bits. -/
theorem toNat_shiftLeft (x : Register) {n : Register} {k : Nat} (hn : n.toNat = k) (hk : k < 32) :
    (x <<< n).toNat = 2 ^ k * x.toNat % 2 ^ 32 := by
  subst hn
  rw [UInt32.toNat_shiftLeft, Nat.mod_eq_of_lt hk, Nat.shiftLeft_eq, Nat.mul_comm]

theorem exists_shift? {n : Register} {k : Nat} (hn : n.toNat = k) (hk : k < 32)
    (h : x.toNat * 2 ^ k < 2 ^ 32) : ∃ z, shift? x n = some z ∧ z.toNat = x.toNat * 2 ^ k := by
  refine ⟨_, if_pos (hn ▸ h), ?_⟩
  rw [toNat_shiftLeft x hn hk, Nat.mul_comm, Nat.mod_eq_of_lt h]

theorem large_iff (h : x.toNat < 0x10000) : x.large ↔ 0x8000 ≤ x.toNat := by
  have hand : (x &&& 0x8000).toNat = x.toNat / 2 ^ 15 % 2 * 2 ^ 15 := by
    rw [← Nat.toNat_testBit, ← Nat.and_two_pow]
    exact UInt32.toNat_and x 0x8000
  rw [large, decide_eq_true_iff, ne_eq, ← UInt32.toNat_inj, hand, UInt32.toNat_zero]
  omega

/-- The size `a` of an interval needs `n` doublings to be large. -/
def LargeAfter (a n : Nat) : Prop := 0x8000 ≤ a * 2 ^ n ∧ a * 2 ^ n < 0x10000

/-- A size that needs doublings is small, and the first of them leaves the others. -/
theorem LargeAfter.double {a n : Nat} (h : LargeAfter a (n + 1)) :
    a < 0x8000 ∧ LargeAfter (2 * a) n := by
  have heq : a * 2 ^ (n + 1) = 2 * a * 2 ^ n := by ring
  obtain ⟨hle, hlt⟩ := h
  rw [heq] at hle hlt
  have := Nat.le_mul_of_pos_right (2 * a) (Nat.two_pow_pos n)
  exact ⟨by omega, hle, hlt⟩

/-- The size of an interval is large when no doublings are left that it needs. -/
theorem LargeAfter.large_iff {n : Nat} (h : LargeAfter x.toNat n) : x.large ↔ n = 0 := by
  obtain ⟨hle, hlt⟩ := h
  rw [Register.large_iff ((Nat.le_mul_of_pos_right _ (Nat.two_pow_pos n)).trans_lt hlt)]
  constructor
  · intro hlarge
    by_contra hn
    have := Nat.mul_le_mul_left x.toNat (Nat.le_self_pow hn 2)
    omega
  · rintro rfl
    rwa [pow_zero, Nat.mul_one] at hle

theorem toNat_and_mask (x mask : Register) {k : Nat} (h : mask.toNat = 2 ^ k - 1) :
    (x &&& mask).toNat = x.toNat % 2 ^ k := by
  rw [UInt32.toNat_and, h, Nat.and_two_pow_sub_one_eq_mod]

theorem toNat_or_mask (x mask : Register) {k : Nat} (h : mask.toNat = 2 ^ k - 1) :
    (x ||| mask).toNat = x.toNat / 2 ^ k * 2 ^ k + (2 ^ k - 1) := by
  have hlt : 2 ^ k - 1 < 2 ^ k := Nat.sub_one_lt (Nat.two_pow_pos k).ne'
  rw [UInt32.toNat_or, h, Nat.mul_comm]
  refine Nat.eq_of_testBit_eq fun i => ?_
  rw [Nat.testBit_or, Nat.testBit_two_pow_mul_add _ hlt, Nat.testBit_div_two_pow,
    Nat.testBit_two_pow_sub_one]
  by_cases hi : i < k
  · rw [decide_eq_true hi, Bool.or_true, if_pos hi]
  · rw [decide_eq_false hi, Bool.or_false, if_neg hi, Nat.sub_add_cancel (Nat.not_lt.mp hi)]

theorem toNat_and_one (x : Register) : (x &&& 1).toNat = x.odd.toNat := by
  rw [odd, Nat.toNat_testBit, pow_zero, Nat.div_one]
  exact toNat_and_mask x 1 (k := 1) rfl

theorem toNat_qe (cx : Context) : (UInt32.ofNat cx.estimate.qe).toNat = cx.estimate.qe := by
  have hqe := cx.qe_le
  rw [UInt32.toNat_ofNat']
  omega

/-- Between two decisions, an estimate leaves something for the upper part of the interval. -/
theorem exists_sub_qe? (cx : Context) (hle : 0x8000 ≤ x.toNat) (hlt : x.toNat < 0x10000) :
    ∃ a, sub? x (.ofNat cx.estimate.qe) = some a ∧ a.toNat = x.toNat - cx.estimate.qe ∧
      (a.large ↔ 0x8000 ≤ x.toNat - cx.estimate.qe) ∧
      (a < .ofNat cx.estimate.qe ↔ x.toNat - cx.estimate.qe < cx.estimate.qe) := by
  have hqe := cx.qe_le
  have hofNat := toNat_qe cx
  obtain ⟨a, hsub, ha⟩ := exists_sub? (x := x) (y := .ofNat cx.estimate.qe) (by omega)
  rw [hofNat] at ha
  refine ⟨a, hsub, ha, ?_, ?_⟩
  · rw [large_iff (by omega), ha]
  · rw [UInt32.lt_iff_toNat_lt, ha, hofNat]

end Register

/-! ## Contexts -/

namespace Contexts

variable (contexts : Contexts) (i : Nat)

theorem getD_map_raw : (contexts.map Context.raw).getD i {} = (contexts.lookup i).raw := by
  unfold lookup
  by_cases h : i < contexts.size <;> simp [Array.getD, h, Context.raw_default]

theorem setIfInBounds_map_raw (cx : Context) :
    (contexts.map Context.raw).setIfInBounds i cx.raw = (contexts.update i cx).map Context.raw := by
  simp [update]

end Contexts

end Bilevel.Mq

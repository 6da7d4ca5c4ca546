import Bilevel.Error

/-!
# The width of numbers

The format stores numbers in fields of at most 32 bits. Quantities are computed as unbounded
numbers here, and the places where a result has to fit a field again say so with a check from this
module. Where nothing is checked, numbers that don't fit wrap around.
-/

namespace Bilevel

/-- Whether a number fits an unsigned field of 32 bits. -/
def FitsWord (n : Int) : Prop := 0 ≤ n ∧ n ≤ 0xFFFFFFFF

/-- Whether a number fits a signed field of 32 bits. -/
def FitsSigned (n : Int) : Prop := -0x80000000 ≤ n ∧ n ≤ 0x7FFFFFFF

instance (n : Int) : Decidable (FitsWord n) := inferInstanceAs (Decidable (_ ∧ _))

instance (n : Int) : Decidable (FitsSigned n) := inferInstanceAs (Decidable (_ ∧ _))

/-- An unsigned result, or an overflow. -/
def checkWord (n : Nat) : Except DecodeError Nat :=
  if FitsWord n then .ok n else .error .overflow

/-- A signed result, or an overflow. -/
def checkSigned (n : Int) : Except DecodeError Int :=
  if FitsSigned n then .ok n else .error .overflow

/-- What is left of a number in a signed field of 32 bits: the number itself if it fits, and
otherwise the one with the same low bits, as numbers wrap around. -/
def wrapSigned (n : Int) : Int := if FitsSigned n then n else Int.bmod n 0x100000000

theorem checkWord_eq_ok {n m : Nat} : checkWord n = .ok m ↔ n ≤ 0xFFFFFFFF ∧ m = n := by
  have hfits : FitsWord n ↔ n ≤ 0xFFFFFFFF := by
    unfold FitsWord
    omega
  unfold checkWord
  split
  · next h => rw [Except.ok.injEq, eq_comm, and_iff_right (hfits.mp h)]
  · next h => simp [mt hfits.mpr h]

theorem checkSigned_eq_ok {n m : Int} : checkSigned n = .ok m ↔ FitsSigned n ∧ m = n := by
  unfold checkSigned
  split
  · next h => rw [Except.ok.injEq, eq_comm, and_iff_right h]
  · next h => simp [h]

theorem wrapSigned_of_fits {n : Int} (h : FitsSigned n) : wrapSigned n = n := if_pos h

theorem wrapSigned_eq (n : Int) :
    wrapSigned n = (n + 0x80000000) % 0x100000000 - 0x80000000 := by
  unfold wrapSigned FitsSigned
  rw [Int.bmod_def]
  omega

/-- It makes no difference whether numbers wrap around before others are added to them. -/
theorem wrapSigned_add (n m : Int) : wrapSigned (wrapSigned n + m) = wrapSigned (n + m) := by
  simp only [wrapSigned_eq]
  omega

/-- The signed number that the low `bits` bits of `n` stand for in two's complement. -/
def toSigned (bits n : Nat) : Int := Int.bmod n (1 <<< bits)

/-- The `bits` bits of two's complement that stand for `n`. -/
def ofSigned (bits : Nat) (n : Int) : Nat := (n % (1 <<< bits : Nat)).toNat

theorem toSigned_ofSigned {bits : Nat} {n : Int} (hl : -(1 <<< bits : Nat) ≤ 2 * n)
    (hh : 2 * n < (1 <<< bits : Nat)) : toSigned bits (ofSigned bits n) = n := by
  unfold toSigned ofSigned
  rw [Int.toNat_of_nonneg (Int.emod_nonneg _ (by omega)), Int.emod_bmod]
  apply Int.bmod_eq_of_le <;> omega

end Bilevel

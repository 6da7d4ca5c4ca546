import Bilevel.Huffman.Table
import Mathlib.Algebra.BigOperators.Group.List.Basic
import Mathlib.Algebra.Order.Field.Rat
import Mathlib.Data.Nat.Cast.Order.Field
import Mathlib.Tactic.NormNum
import Mathlib.Tactic.Ring

/-!
# When code words have room

The code words of a list of lines have room at every length if those of the longest lines do: a code
word takes up two code words of the next length, so nothing is gained by going back. At a length
that no line goes beyond, the part that is taken up is Kraft's sum.

## Main definitions

* `taken` — how many code words of a given length begin with one that is assigned.
* `kraftSum` — Kraft's sum.

## Main results

* `firstCode_add_countLength` — what is taken up at a length are the first code words.
* `hasRoom_iff` — there is room if no line is too long and Kraft's sum is at most one.
-/

namespace Bilevel.Huffman

/-- The sum of `2 ^ -length` over the used lines. -/
def kraftSum (lines : List Line) : ℚ :=
  ((lines.filter (·.used)).map fun line => (1 / 2 : ℚ) ^ line.length).sum

/-- The number of code words of a given length that begin with the one of a line. -/
def extensions (length : Nat) (line : Line) : Nat :=
  if line.used = true ∧ line.length ≤ length then 2 ^ (length - line.length) else 0

/-- The number of code words of a given length that begin with the one of some line. -/
def taken (lines : List Line) (length : Nat) : Nat := (lines.map (extensions length)).sum

section

variable {lines : List Line} {k m : Nat}

theorem extensions_succ (k : Nat) (line : Line) :
    extensions (k + 1) line = 2 * extensions k line + if line.length = k + 1 then 1 else 0 := by
  unfold extensions Line.used
  rcases Nat.lt_trichotomy line.length (k + 1) with h | h | h
  · have hpow : 2 ^ (k + 1 - line.length) = 2 * 2 ^ (k - line.length) := by
      rw [← Nat.pow_succ', show k + 1 - line.length = k - line.length + 1 by omega]
    grind
  · simp [h]
  · simp [show ¬line.length ≤ k + 1 by omega, show ¬line.length ≤ k by omega,
      show line.length ≠ k + 1 by omega]

theorem taken_zero (lines : List Line) : taken lines 0 = 0 := by
  have h : extensions 0 = fun _ => 0 := by
    funext line
    simp only [extensions, Line.used, decide_eq_true_eq]
    exact if_neg (by omega)
  simp [taken, h]

/-- Every code word has two extensions by one bit, and the lines of the next length are new. -/
theorem taken_succ (lines : List Line) (k : Nat) :
    taken lines (k + 1) = 2 * taken lines k + countLength lines (k + 1) := by
  unfold taken countLength
  rw [if_neg (Nat.succ_ne_zero k)]
  induction lines with
  | nil => rfl
  | cons line lines ih =>
    simp only [List.map_cons, List.sum_cons, ih, extensions_succ, List.countP_cons, beq_iff_eq]
    omega

/-- Up to the last code word of a length there are as many as begin with one that is assigned. -/
theorem firstCode_add_countLength (lines : List Line) (k : Nat) :
    firstCode lines k + countLength lines k = taken lines k := by
  induction k with
  | zero => simp [firstCode, countLength, taken_zero]
  | succ k ih => rw [firstCode, ih, taken_succ]

theorem firstCode_succ (lines : List Line) (k : Nat) :
    firstCode lines (k + 1) = 2 * taken lines k := by
  rw [firstCode, firstCode_add_countLength]

/-- The code words of a length come after all extensions of shorter ones. -/
theorem taken_mul_le_firstCode (h : k < m) : taken lines k * 2 ^ (m - k) ≤ firstCode lines m := by
  induction m, h using Nat.le_induction with
  | base => simp [firstCode_succ, Nat.mul_comm]
  | succ m h ih =>
    calc taken lines k * 2 ^ (m + 1 - k)
        = 2 * (taken lines k * 2 ^ (m - k)) := by
          rw [show m + 1 - k = m - k + 1 by omega, Nat.pow_succ]
          ring
      _ ≤ 2 * taken lines m := by
          have := firstCode_add_countLength lines m
          omega
      _ = firstCode lines (m + 1) := (firstCode_succ lines m).symm

/-- Shorter code words have room if longer ones do. -/
theorem taken_le_of_le (h : k ≤ m) (hm : taken lines m ≤ 2 ^ m) : taken lines k ≤ 2 ^ k := by
  induction h using Nat.decreasingInduction with
  | self => exact hm
  | of_succ k h ih =>
    rw [taken_succ, Nat.pow_succ'] at ih
    omega

/-- At a length that no line goes beyond, the part that is taken is Kraft's sum. -/
theorem taken_eq_kraftSum_mul (h : ∀ line ∈ lines, line.length ≤ m) :
    (taken lines m : ℚ) = kraftSum lines * 2 ^ m := by
  unfold taken kraftSum
  induction lines with
  | nil => simp
  | cons line lines ih =>
    obtain ⟨hline, hlines⟩ := List.forall_mem_cons.mp h
    rw [List.map_cons, List.sum_cons, Nat.cast_add, ih hlines, extensions]
    by_cases hused : line.used = true
    · have hpow : (2 : ℚ) ^ (m - line.length) = (1 / 2) ^ line.length * 2 ^ m := by
        rw [← Nat.sub_add_cancel hline, Nat.add_sub_cancel, pow_add, mul_left_comm, ← mul_pow]
        norm_num
      simp only [hused, hline, and_self, if_true, Nat.cast_pow, Nat.cast_ofNat, hpow,
        List.filter_cons_of_pos, List.map_cons, List.sum_cons]
      ring
    · simp [hused]

theorem hasRoom_eq_true : hasRoom lines = true ↔
    (∀ line ∈ lines, line.length ≤ maxLength) ∧
      ∀ k < maxLength, taken lines (k + 1) ≤ 2 ^ (k + 1) := by
  simp [hasRoom, firstCode_add_countLength, Nat.one_shiftLeft]

/-- There is room if no line is too long and Kraft's sum is at most one. -/
theorem hasRoom_iff : hasRoom lines = true ↔
    (∀ line ∈ lines, line.length ≤ maxLength) ∧ kraftSum lines ≤ 1 := by
  rw [hasRoom_eq_true]
  refine and_congr_right fun h => ?_
  calc (∀ k < maxLength, taken lines (k + 1) ≤ 2 ^ (k + 1))
      ↔ taken lines maxLength ≤ 2 ^ maxLength :=
        ⟨fun hroom => hroom 31 (by decide), fun hroom k hk => taken_le_of_le hk hroom⟩
    _ ↔ (taken lines maxLength : ℚ) ≤ 2 ^ maxLength := by exact_mod_cast Iff.rfl
    _ ↔ kraftSum lines ≤ 1 := by
        rw [taken_eq_kraftSum_mul h]
        exact mul_le_iff_le_one_left (pow_pos two_pos _)

end
end Bilevel.Huffman

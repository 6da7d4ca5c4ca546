import Bilevel.Mq.Encoder
import Mathlib.Data.List.Infix
import Mathlib.Tactic.Ring

/-!
# Coded bytes as numbers

A stream of decisions is one long number, written in bytes of eight bits, or of seven bits behind a
byte of ones. The highest bit of a byte behind a byte of ones overlaps with that byte, so a carry
can be written there. Bytes are listed here with the last one first, as they are put out.

## Main definitions

* `Code.bits`, `Code.value` — how many bits some bytes stand for, and which number.
* `Code.Clean` — no marker appears among the bytes.
* `Code.Carried` — the same bytes, or with a carry added to the last one.
-/

namespace Bilevel.Mq.Code

/-- The number of bits in the byte that follows. -/
def room : List UInt8 → Nat
  | 0xFF :: _ => 7
  | _ => 8

def bits : List UInt8 → Nat
  | [] => 0
  | _ :: p => bits p + room p

def value : List UInt8 → Nat
  | [] => 0
  | b :: p => value p * 2 ^ room p + b.toNat

/-- No byte of ones is followed by one that makes it a marker. -/
def Clean : List UInt8 → Prop
  | [] => True
  | b :: p => (room p = 7 → b.toNat ≤ 0x8F) ∧ Clean p

/-- The bytes `x` are the bytes `p`, but for a carry into the last one. -/
inductive Carried : List UInt8 → List UInt8 → Prop
  | same (p : List UInt8) : Carried p p
  | carry (b : UInt8) (p : List UInt8) (h : b ≠ 0xFF) : Carried (b :: p) ((b + 1) :: p)

theorem room_cons (b : UInt8) (p : List UInt8) : room (b :: p) = if b = 0xFF then 7 else 8 := by
  split
  · next h => subst h; rfl
  · next h =>
    unfold room
    split
    · simp_all
    · rfl

theorem room_eq (p : List UInt8) : room p = 7 ∨ room p = 8 := by
  cases p with
  | nil => exact .inr rfl
  | cons b p => rw [room_cons]; split <;> simp

theorem room_le (p : List UInt8) : room p ≤ 8 := by
  rcases room_eq p with h | h <;> omega

theorem seven_le_room (p : List UInt8) : 7 ≤ room p := by
  rcases room_eq p with h | h <;> omega

theorem bits_lt_cons (b : UInt8) (p : List UInt8) : bits p < bits (b :: p) := by
  have := seven_le_room p
  simp only [bits]
  omega

theorem bits_le_length (p : List UInt8) : bits p ≤ 8 * p.length := by
  induction p with
  | nil => simp [bits]
  | cons b p ih =>
    have := room_le p
    simp only [bits, List.length_cons]
    omega

theorem bits_mono {p q : List UInt8} (h : p <:+ q) : bits p ≤ bits q := by
  obtain ⟨r, rfl⟩ := h
  induction r with
  | nil => exact le_rfl
  | cons b r ih => exact ih.trans (bits_lt_cons b _).le

/-- Of two lists that `code` ends with, the one with fewer bits ends the other. -/
theorem suffix_of_bits_le {p q code : List UInt8} (hp : p <:+ code) (hq : q <:+ code)
    (h : bits p ≤ bits q) : p <:+ q := by
  rcases List.suffix_or_suffix_of_suffix hp hq with hpq | hqp
  · exact hpq
  · obtain ⟨r, rfl⟩ := hqp
    cases r with
    | nil => exact List.suffix_rfl
    | cons b r =>
      have hlt := bits_lt_cons b (r ++ q)
      have hle := bits_mono (List.suffix_append r q)
      simp only [List.cons_append] at h
      omega

/-- What comes later doesn't lower the number. -/
theorem value_mono {p q : List UInt8} (h : p <:+ q) :
    value p * 2 ^ bits q ≤ value q * 2 ^ bits p := by
  obtain ⟨r, rfl⟩ := h
  induction r with
  | nil => exact le_rfl
  | cons b r ih =>
    simp only [List.cons_append, bits, value, pow_add]
    calc value p * (2 ^ bits (r ++ p) * 2 ^ room (r ++ p))
        = value p * 2 ^ bits (r ++ p) * 2 ^ room (r ++ p) := by ring
      _ ≤ value (r ++ p) * 2 ^ bits p * 2 ^ room (r ++ p) := Nat.mul_le_mul_right _ ih
      _ ≤ (value (r ++ p) * 2 ^ room (r ++ p) + b.toNat) * 2 ^ bits p := by
        rw [Nat.add_mul]
        refine (Nat.le_of_eq ?_).trans (Nat.le_add_right _ _)
        ring

theorem Clean.of_suffix {p q : List UInt8} (h : p <:+ q) (hq : Clean q) : Clean p := by
  obtain ⟨r, rfl⟩ := h
  induction r with
  | nil => exact hq
  | cons b r ih => exact ih hq.2

namespace Carried

theorem bits_eq {p x : List UInt8} (h : Carried p x) : bits x = bits p := by
  cases h <;> rfl

theorem toNat_succ {b : UInt8} (h : b ≠ 0xFF) : (b + 1).toNat = b.toNat + 1 := by
  have hlt := b.toNat_lt
  have hne : b.toNat ≠ 255 := fun he => h (UInt8.toNat_inj.mp he)
  rw [UInt8.toNat_add]
  simp only [UInt8.reduceToNat]
  omega

theorem value_le {p x : List UInt8} (h : Carried p x) : value p ≤ value x := by
  cases h with
  | same => exact le_rfl
  | carry b p hb =>
    simp only [value, toNat_succ hb]
    omega

/-- The bytes before the last one are final. -/
theorem tail_eq {b : UInt8} {p x : List UInt8} (h : Carried (b :: p) x) :
    ∃ b', x = b' :: p := by
  cases h with
  | same => exact ⟨_, rfl⟩
  | carry => exact ⟨_, rfl⟩

end Carried

/-- All bytes of a stream, the first one first: behind the coded bytes comes the marker `FF AC`,
whose first byte may be the last coded one. -/
def bytes (code : List UInt8) : List UInt8 :=
  code.reverse ++ (if room code = 7 then [0xAC] else [0xFF, 0xAC])

end Bilevel.Mq.Code

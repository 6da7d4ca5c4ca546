/-!
# Bits of a byte string

Fields, code words and rows of pixels are all cut from byte strings, and in each byte the most
significant bit comes first. `bitAt` numbers the bits of a byte string in that order, `setBit`
changes one of them, and two byte strings of one length are equal when their bits are.
-/

namespace Bilevel

/-- A byte string. -/
abbrev Bytes := Array UInt8

namespace Bits

/-- The byte in which only bit `k`, counted from the most significant one, is set. -/
def mask (k : Nat) : UInt8 := 128 >>> UInt8.ofNat k

/-- Bit `k` of a byte, counted from the most significant one. -/
def ofByte (byte : UInt8) (k : Nat) : Bool := byte.toBitVec.getMsbD k

/-- A byte with bit `k` set to `value`. -/
def setInByte (byte : UInt8) (k : Nat) (value : Bool) : UInt8 :=
  if value then byte ||| mask k else byte &&& ~~~(mask k)

/-- Bit `i` of a byte string; there are only zeros past its end. -/
def bitAt (data : Bytes) (i : Nat) : Bool := ofByte (data.getD (i / 8) 0) (i % 8)

/-- A byte string with bit `i` set to `value`. -/
def setBit (data : Bytes) (i : Nat) (value : Bool) : Bytes :=
  data.modify (i / 8) (setInByte · (i % 8) value)

/-- The `count` lowest bits of a number, most significant first. -/
def lowBits : (count n : Nat) → List Bool
  | 0, _ => []
  | count + 1, n => n.testBit count :: lowBits count n

/-! ## Single bytes -/

theorem ofByte_mask {j k : Nat} (hj : j < 8) (hk : k < 8) :
    ofByte (mask k) j = decide (j = k) := by
  have h : ∀ j k : Fin 8, ofByte (mask k.val) j.val = decide (j.val = k.val) := by decide
  exact h ⟨j, hj⟩ ⟨k, hk⟩

theorem ofByte_or (a b : UInt8) (k : Nat) : ofByte (a ||| b) k = (ofByte a k || ofByte b k) := by
  simp [ofByte]

theorem ofByte_and (a b : UInt8) (k : Nat) : ofByte (a &&& b) k = (ofByte a k && ofByte b k) := by
  simp [ofByte]

theorem ofByte_not (a : UInt8) {k : Nat} (hk : k < 8) : ofByte (~~~a) k = !ofByte a k := by
  simp [ofByte, BitVec.getMsbD_not, hk]

@[simp] theorem ofByte_zero (k : Nat) : ofByte 0 k = false := by
  simp [ofByte]

theorem ofByte_255 {k : Nat} (hk : k < 8) : ofByte 255 k = true := by
  have h : ∀ k : Fin 8, ofByte 255 k.val = true := by decide
  exact h ⟨k, hk⟩

theorem ofByte_setInByte (byte : UInt8) (value : Bool) {j k : Nat} (hj : j < 8) (hk : k < 8) :
    ofByte (setInByte byte k value) j = if j = k then value else ofByte byte j := by
  unfold setInByte
  cases value
  · simp only [Bool.false_eq_true, if_false, ofByte_and, ofByte_not _ hj, ofByte_mask hj hk]
    by_cases h : j = k <;> simp [h]
  · simp only [if_true, ofByte_or, ofByte_mask hj hk]
    by_cases h : j = k <;> simp [h]

/-- A byte is determined by its eight bits. -/
theorem byte_ext {a b : UInt8} (h : ∀ k < 8, ofByte a k = ofByte b k) : a = b := by
  apply UInt8.toBitVec_inj.mp
  apply BitVec.eq_of_getMsbD_eq
  intro k hk
  exact h k hk

/-! ## Byte strings -/

theorem bitAt_of_size_le {data : Bytes} {i : Nat} (h : 8 * data.size ≤ i) :
    bitAt data i = false := by
  have : data.size ≤ i / 8 := by omega
  simp [bitAt, Array.getD, Nat.not_lt.mpr this]

theorem bitAt_eq {data : Bytes} {j k : Nat} (hj : j < data.size) (hk : k < 8) :
    bitAt data (8 * j + k) = ofByte data[j] k := by
  have h1 : (8 * j + k) / 8 = j := by omega
  have h2 : (8 * j + k) % 8 = k := by omega
  simp [bitAt, h1, h2, Array.getD, hj]

@[simp] theorem size_setBit (data : Bytes) (i : Nat) (value : Bool) :
    (setBit data i value).size = data.size := by
  simp [setBit]

theorem bitAt_setBit (data : Bytes) (i j : Nat) (value : Bool) (hi : i < 8 * data.size) :
    bitAt (setBit data i value) j = if j = i then value else bitAt data j := by
  by_cases hj : j < 8 * data.size
  · have hj' : j / 8 < data.size := by omega
    have hb : j % 8 < 8 := by omega
    have hc : i % 8 < 8 := by omega
    simp only [bitAt, setBit, Array.getD, Array.size_modify, hj', dite_true,
      Array.getInternal_eq_getElem, Array.getElem_modify]
    by_cases h : i / 8 = j / 8
    · rw [if_pos h, ofByte_setInByte _ _ hb hc]
      by_cases h' : j = i
      · simp [h']
      · have : j % 8 ≠ i % 8 := by omega
        simp [h', this]
    · have : j ≠ i := by rintro rfl; exact h rfl
      simp [h, this]
  · have : j ≠ i := by omega
    rw [bitAt_of_size_le (by simp; omega), bitAt_of_size_le (by omega), if_neg this]

/-- A byte string is determined by its length and its bits. -/
theorem bytes_ext {a b : Bytes} (hs : a.size = b.size)
    (h : ∀ i < 8 * a.size, bitAt a i = bitAt b i) : a = b := by
  apply Array.ext hs
  intro j ha hb
  apply byte_ext
  intro k hk
  rw [← bitAt_eq ha hk, ← bitAt_eq hb hk]
  exact h _ (by omega)

end Bits
end Bilevel

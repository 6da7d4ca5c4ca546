import Bilevel.Proofs.Bits.Stream
import Bilevel.Proofs.Steps

/-!
# Reading back what was written

A writer has written a list of bits, and a reader has a list of bits left. A read is described by
the bits that it takes up and by what it makes of them; reads one after another take up their bits
one after another.

## Main definitions

* `Writer.bits`, `Reader.rest` — what was written, and what is left to read.
* `Reads` — a read takes up given bits and gives a value.

## Main results

* `Writer.bits_writeBits`, `reads_readBits` — numbers of some bits.
* `Writer.bits_writeBytes`, `reads_readBytes`, `reads_readUnsigned` — whole bytes.
-/

namespace Bilevel

open Bits

/-! ## Writers -/

namespace Writer

/-- No more bits are in use than there are. -/
structure Valid (w : Writer) : Prop where
  used_lt : w.used < 8
  pos : w.used ≠ 0 → 0 < w.data.size

/-- The number of bits that were written. -/
def length (w : Writer) : Nat :=
  if w.used = 0 then 8 * w.data.size else 8 * (w.data.size - 1) + w.used

/-- The bits that were written. -/
def bits (w : Writer) : List Bool := firstBits w.data w.length

variable {w : Writer}

theorem bits_of_aligned (h : w.used = 0) : w.bits = toList w.data := by
  simp [bits, length, h, toList]

theorem valid_of_aligned (h : w.used = 0) : w.Valid :=
  ⟨by omega, fun hne => absurd h hne⟩

theorem length_bits (w : Writer) : w.bits.length = w.length := length_firstBits _ _

@[simp] theorem valid_empty : empty.Valid := valid_of_aligned rfl

@[simp] theorem bits_empty : empty.bits = [] := rfl

theorem length_le (h : w.Valid) : w.length ≤ 8 * w.data.size := by
  have := h.used_lt
  have := h.pos
  unfold length
  split <;> omega

theorem bits_prefix (h : w.Valid) : w.bits <+: toList w.data := by
  rw [bits, ← take_firstBits (length_le h)]
  exact List.take_prefix _ _

theorem bits_writeBit (h : w.Valid) (bit : Bool) : (w.writeBit bit).bits = w.bits ++ [bit] ∧
    (w.writeBit bit).Valid := by
  have hlt := h.used_lt
  have hpos := h.pos
  -- the byte in which the bit is set
  obtain ⟨data, hdata, hsize, hold⟩ : ∃ data : Bytes,
      w.writeBit bit = ⟨setBit data w.length bit, (w.used + 1) % 8⟩ ∧
        w.length = 8 * (data.size - 1) + w.used ∧
          (0 < data.size ∧ ∀ i < w.length, bitAt data i = bitAt w.data i) := by
    by_cases hu : w.used = 0
    · refine ⟨w.data.push 0, ?_, ?_, by simp, fun i hi => ?_⟩
      · simp [writeBit, hu, length]
      · simp [length, hu]
      · have hi' : i < 8 * w.data.size := by simpa [length, hu] using hi
        rw [← Array.append_singleton, bitAt_append, if_pos hi']
    · refine ⟨w.data, ?_, ?_, hpos hu, fun i hi => rfl⟩
      · simp [writeBit, hu, length]
      · simp [length, hu]
  have hlength : (w.writeBit bit).length = w.length + 1 := by
    rw [hdata, hsize]
    simp only [length, size_setBit]
    split <;> omega
  constructor
  · have hin : w.length < 8 * data.size := by omega
    rw [bits, hlength, firstBits_succ, hdata]
    congr 1
    · refine firstBits_congr fun i hi => ?_
      rw [bitAt_setBit _ _ _ _ hin, if_neg (by omega), hold.2 i hi]
    · rw [bitAt_setBit _ _ _ _ hin, if_pos rfl]
  · rw [hdata]
    refine ⟨Nat.mod_lt _ (by decide), fun _ => ?_⟩
    simp only [size_setBit]
    exact hold.1

theorem bits_writeBits (h : w.Valid) (count n : Nat) :
    (w.writeBits count n).bits = w.bits ++ lowBits count n ∧ (w.writeBits count n).Valid := by
  unfold writeBits
  generalize lowBits count n = bits
  induction bits generalizing w with
  | nil => simpa using h
  | cons bit bits ih =>
    obtain ⟨hbits, hvalid⟩ := bits_writeBit h bit
    obtain ⟨hrest, hvalid'⟩ := ih hvalid
    refine ⟨?_, hvalid'⟩
    rw [List.foldl_cons, hrest, hbits]
    simp

theorem bits_writeBytes (h : w.used = 0) (bytes : Bytes) :
    (w.writeBytes bytes).bits = w.bits ++ toList bytes := by
  have h' : (w.writeBytes bytes).used = 0 := h
  rw [bits_of_aligned h, bits_of_aligned h', writeBytes, toList_append]

/-- Byte strings that are written one after another. -/
theorem foldl_writeBytes {α : Type} (f : α → Bytes) (xs : List α) (w : Writer) :
    xs.foldl (fun w x => w.writeBytes (f x)) w =
      w.writeBytes (xs.foldr (fun x rest => f x ++ rest) #[]) := by
  induction xs generalizing w with
  | nil => simp [writeBytes]
  | cons x xs ih =>
    rw [List.foldl_cons, ih]
    simp [writeBytes, Array.append_assoc]

theorem bits_align (h : w.Valid) : w.bits <+: w.align.bits :=
  bits_prefix h

theorem length_align (h : w.Valid) : w.align.length = 8 * ((w.length + 7) / 8) := by
  have hlt := h.used_lt
  have hpos := h.pos
  simp only [length, align, if_true]
  split <;> omega

end Writer

/-! ## Readers -/

namespace Reader

/-- The bits that are left. -/
def rest (r : Reader) : List Bool := (toList r.data).drop r.position

/-- Pass over some bits. -/
def skip (r : Reader) (count : Nat) : Reader := { r with position := r.position + count }

@[simp] theorem data_skip (r : Reader) (count : Nat) : (r.skip count).data = r.data := rfl

@[simp] theorem position_skip (r : Reader) (count : Nat) :
    (r.skip count).position = r.position + count := rfl

@[simp] theorem skip_zero (r : Reader) : r.skip 0 = r := rfl

theorem skip_skip (r : Reader) (m n : Nat) : (r.skip m).skip n = r.skip (m + n) := by
  simp [skip, Nat.add_assoc]

theorem rest_skip (r : Reader) (count : Nat) : (r.skip count).rest = r.rest.drop count := by
  simp [rest]

/-- What is left behind the next bits. -/
theorem rest_skip_append {r : Reader} {bits tl : List Bool} (h : r.rest = bits ++ tl) :
    (r.skip bits.length).rest = tl := by
  rw [rest_skip, h, List.drop_left]

@[simp] theorem rest_ofBytes (data : Bytes) : (ofBytes data).rest = toList data := rfl

theorem length_rest (r : Reader) : r.rest.length = 8 * r.data.size - r.position := by
  simp [rest]

/-- There is room for the bits that are left. -/
theorem position_add_le {r : Reader} {bits tl : List Bool} (hle : r.position ≤ 8 * r.data.size)
    (h : r.rest = bits ++ tl) : r.position + bits.length ≤ 8 * r.data.size := by
  have hlen := congrArg List.length h
  rw [length_rest, List.length_append] at hlen
  omega

theorem getElem?_rest {r : Reader} {i : Nat} (h : r.position + i < 8 * r.data.size) :
    r.rest[i]? = some (bitAt r.data (r.position + i)) := by
  rw [rest, List.getElem?_drop, toList, getElem?_firstBits, if_pos h]

end Reader

/-- Whenever the reader has the given bits left, on a byte boundary if `aligned` is set, the read
takes them up and gives the value `a`. -/
def Reads {α : Type} (aligned : Prop) (m : Reading α) (bits : List Bool) (a : α) : Prop :=
  ∀ (r : Reader) (tl : List Bool), r.position ≤ 8 * r.data.size → (aligned → 8 ∣ r.position) →
    r.rest = bits ++ tl → m r = .ok (a, r.skip bits.length)

section

variable {α β : Type} {p q : Prop} {m : Reading α} {f : α → Reading β} {bits bits' : List Bool}
  {a : α} {b : β}

theorem reads_pure (a : α) : Reads p (pure a) [] a := fun _ _ _ _ _ => run_pure

theorem Reads.bind (h : Reads p m bits a) (h' : Reads q (f a) bits' b)
    (hq : q → p ∧ 8 ∣ bits.length) : Reads p (m >>= f) (bits ++ bits') b := by
  intro r tl hle hr hrest
  have hfirst := h r (bits' ++ tl) hle hr (by rw [hrest, List.append_assoc])
  have hsecond := h' (r.skip bits.length) tl ?_ (fun hq' => ?_) ?_
  · simp only [Bind.bind, StateT.bind, Except.bind, hfirst, hsecond, Reader.skip_skip,
      List.length_append]
  · rw [List.append_assoc] at hrest
    exact Reader.position_add_le hle hrest
  · obtain ⟨hp, hb⟩ := hq hq'
    exact Nat.dvd_add (hr hp) hb
  · rw [List.append_assoc] at hrest
    exact Reader.rest_skip_append hrest

/-- A step that reads nothing. -/
theorem Reads.bind_nil (h : Reads p m [] a) (h' : Reads p (f a) bits b) :
    Reads p (m >>= f) bits b :=
  h.bind h' fun hp => ⟨hp, Nat.dvd_zero 8⟩

theorem reads_lift {x : Except DecodeError α} (h : x = .ok a) : Reads p (liftM x) [] a := by
  intro r tl _ _ _
  rw [h]
  rfl

theorem Reads.aligned (h : Reads False m bits a) : Reads p m bits a :=
  fun r tl hle _ hrest => h r tl hle False.elim hrest

end

theorem reads_readBit (bit : Bool) : Reads False Reader.readBit [bit] bit := by
  intro r tl hle _ hrest
  have hlt : r.position < 8 * r.data.size := Reader.position_add_le hle hrest
  have hget := Reader.getElem?_rest (r := r) (i := 0) hlt
  rw [hrest] at hget
  have hbit : bitAt r.data r.position = bit := by simpa using hget.symm
  simp [Reader.readBit, hlt, hbit, Reader.skip]

theorem testBit_window {r : Reader} {count i : Nat} (hle : r.position + count ≤ 8 * r.data.size)
    (hi : i < count) :
    (r.window count).testBit i = bitAt r.data (r.position + (count - 1 - i)) := by
  have hstop : (r.position + count + 7) / 8 ≤ r.data.size := by omega
  have hsize : (r.data.extract (r.position / 8) ((r.position + count + 7) / 8)).size =
      (r.position + count + 7) / 8 - r.position / 8 := by
    simp [Nat.min_eq_left hstop]
  unfold Reader.window
  dsimp only
  rw [Nat.one_shiftLeft, Nat.testBit_mod_two_pow, Nat.testBit_shiftRight,
    testBit_bigEndian (by omega), bitAt_extract hstop (by omega), hsize]
  simp only [hi, decide_true, Bool.true_and]
  congr 1
  omega

theorem window_lt (r : Reader) (count : Nat) : r.window count < 2 ^ count := by
  unfold Reader.window
  rw [Nat.one_shiftLeft]
  exact Nat.mod_lt _ (Nat.two_pow_pos count)

theorem reads_readBits {count n : Nat} (h : n < 2 ^ count) :
    Reads False (Reader.readBits count) (lowBits count n) n := by
  intro r tl hle _ hrest
  have hroom := Reader.position_add_le hle hrest
  rw [length_lowBits] at hroom ⊢
  have hwindow : r.window count = n := by
    apply Nat.eq_of_testBit_eq
    intro i
    by_cases hi : i < count
    · have hget := Reader.getElem?_rest (r := r) (i := count - 1 - i) (by omega)
      rw [hrest, List.getElem?_append_left (by rw [length_lowBits]; omega),
        getElem?_lowBits (by omega), Option.some.injEq] at hget
      rw [testBit_window hroom hi, ← hget]
      congr 1
      omega
    · have hpow := Nat.pow_le_pow_right (show 0 < 2 by decide) (Nat.not_lt.mp hi)
      rw [Nat.testBit_lt_two_pow ((window_lt r count).trans_le hpow),
        Nat.testBit_lt_two_pow (h.trans_le hpow)]
  simp only [Reader.readBits, hroom, if_true, hwindow, Reader.skip]

/-! ## Whole bytes -/

/-- A read on a byte boundary that takes up whole bytes. -/
def ReadsBytes {α : Type} (m : Reading α) (bytes : Bytes) (a : α) : Prop :=
  Reads True m (toList bytes) a

section

variable {α β : Type} {m : Reading α} {f : α → Reading β} {bytes bytes' : Bytes} {a : α} {b : β}

theorem ReadsBytes.bind (h : ReadsBytes m bytes a) (h' : ReadsBytes (f a) bytes' b) :
    ReadsBytes (m >>= f) (bytes ++ bytes') b := by
  rw [ReadsBytes, toList_append]
  exact Reads.bind h h' fun _ => ⟨trivial, by simp⟩

/-- Whole bytes, and bits behind them. -/
theorem ReadsBytes.bind_bits {bits : List Bool} (h : ReadsBytes m bytes a)
    (h' : Reads True (f a) bits b) : Reads True (m >>= f) (toList bytes ++ bits) b :=
  Reads.bind h h' fun _ => ⟨trivial, by simp⟩

theorem readsBytes_pure (a : α) : ReadsBytes (pure a) #[] a := by
  have h : toList #[] = [] := rfl
  rw [ReadsBytes, h]
  exact reads_pure a

/-- The last step that reads something. -/
theorem ReadsBytes.bind_last (h : ReadsBytes m bytes a) (h' : ReadsBytes (f a) #[] b) :
    ReadsBytes (m >>= f) bytes b := by
  have hm := h.bind h'
  rwa [Array.append_empty] at hm

/-- The last step, which reads nothing. -/
theorem ReadsBytes.bind_pure (h : ReadsBytes m bytes a) (g : α → β) :
    ReadsBytes (m >>= fun a => pure (g a)) bytes (g a) := h.bind_last (readsBytes_pure (g a))

/-- A step that reads nothing. -/
theorem ReadsBytes.bind_nil (h : ReadsBytes m #[] a) (h' : ReadsBytes (f a) bytes b) :
    ReadsBytes (m >>= f) bytes b := by
  have hm := h.bind h'
  rwa [Array.empty_append] at hm

end

theorem readsBytes_readBytes (bytes : Bytes) :
    ReadsBytes (Reader.readBytes bytes.size) bytes bytes := by
  intro r tl hle hr hrest
  have hroom := Reader.position_add_le hle hrest
  have hpos := hr trivial
  rw [length_toList] at hroom
  have hextract : r.data.extract (r.position / 8) (r.position / 8 + bytes.size) = bytes := by
    apply toList_inj
    rw [toList_extract (by omega) (by omega), Nat.mul_div_cancel' hpos, Nat.add_sub_cancel_left]
    rw [Reader.rest] at hrest
    rw [hrest, ← length_toList, List.take_left']
    rfl
  have hlt : r.position / 8 + bytes.size ≤ r.data.size := by omega
  simp only [Reader.readBytes, hlt, if_true, hextract, Reader.skip, length_toList]

theorem readsBytes_readUnsigned {count n : Nat} (h : n < 256 ^ count) :
    ReadsBytes (Reader.readUnsigned count) (toBigEndian count n) n := by
  have hread := readsBytes_readBytes (toBigEndian count n)
  rw [size_toBigEndian] at hread
  have hvalue := hread.bind_pure bigEndian
  rwa [bigEndian_toBigEndian h] at hvalue

/-- A number that is read fits its bytes. -/
theorem gives_readUnsigned (count : Nat) :
    Gives (· < 256 ^ count) (Reader.readUnsigned count) := by
  have hbytes : Gives (fun bytes : Bytes => bytes.size ≤ count) (Reader.readBytes count) := by
    intro r bytes r' hread
    unfold Reader.readBytes at hread
    dsimp only at hread
    split at hread
    · obtain ⟨rfl, -⟩ := Prod.mk.inj (Except.ok.inj hread)
      rw [Array.size_extract]
      omega
    · cases hread
  refine hbytes.bind fun bytes hsize => .pure ?_
  calc bigEndian bytes < 2 ^ (8 * bytes.size) := bigEndian_lt bytes
    _ ≤ 2 ^ (8 * count) := Nat.pow_le_pow_right (by decide) (Nat.mul_le_mul_left 8 hsize)
    _ = 256 ^ count := pow_mul 2 8 count

theorem readsBytes_readSigned {count : Nat} {n : Int} (hl : -(2 ^ (8 * count) : Nat) ≤ 2 * n)
    (hh : 2 * n < (2 ^ (8 * count) : Nat)) :
    ReadsBytes (Reader.readSigned count) (toBigEndian count (ofSigned (8 * count) n)) n := by
  have hpow : 256 ^ count = 2 ^ (8 * count) := by
    rw [pow_mul]
    rfl
  have hlt : ofSigned (8 * count) n < 256 ^ count := by
    have hpos := Nat.two_pow_pos (8 * count)
    rw [hpow, ofSigned, Nat.one_shiftLeft]
    have hmod := Int.emod_lt_of_pos n (show 0 < ((2 ^ (8 * count) : Nat) : Int) by omega)
    omega
  have hvalue := (readsBytes_readUnsigned hlt).bind_pure (toSigned (8 * count))
  rwa [toSigned_ofSigned (by rwa [Nat.one_shiftLeft]) (by rwa [Nat.one_shiftLeft])] at hvalue

/-- What is behind the bytes that a read takes up. -/
theorem ReadsBytes.run_append {α : Type} {m : Reading α} {bytes : Bytes} {a : α}
    (h : ReadsBytes m bytes a) (rest : Bytes) : m.run (Reader.ofBytes (bytes ++ rest)) =
      .ok (a, ⟨bytes ++ rest, 8 * bytes.size⟩) := by
  have hrun := h (Reader.ofBytes (bytes ++ rest)) (toList rest) (Nat.zero_le _)
    (fun _ => Nat.dvd_zero 8) (by rw [Reader.rest_ofBytes, toList_append])
  rw [length_toList] at hrun
  simpa [Reader.skip, Reader.ofBytes, StateT.run] using hrun

@[simp] theorem Reader.tail_append (bytes rest : Bytes) :
    Reader.tail ⟨bytes ++ rest, 8 * bytes.size⟩ = rest := by
  unfold Reader.tail
  rw [Nat.mul_div_cancel_left _ (by decide : 0 < 8), Array.extract_append]
  simp

@[simp] theorem Reader.rest_append (bytes rest : Bytes) :
    Reader.rest ⟨bytes ++ rest, 8 * bytes.size⟩ = toList rest := by
  rw [Reader.rest, toList_append, ← length_toList, List.drop_left']
  rfl

/-- A reader between two parts of the data. -/
def Reader.between (front rest : Bytes) : Reader := ⟨front ++ rest, 8 * front.size⟩

@[simp] theorem Reader.data_between (front rest : Bytes) :
    (between front rest).data = front ++ rest := rfl

@[simp] theorem Reader.position_between (front rest : Bytes) :
    (between front rest).position = 8 * front.size := rfl

theorem Reader.between_empty (data : Bytes) : between #[] data = ofBytes data := by
  unfold between ofBytes
  rw [Array.empty_append]
  rfl

/-- Reading what comes next moves it to the front. -/
theorem ReadsBytes.run_between {α : Type} {m : Reading α} {bytes : Bytes} {a : α}
    (h : ReadsBytes m bytes a) (front rest : Bytes) :
    m (.between front (bytes ++ rest)) = .ok (a, .between (front ++ bytes) rest) := by
  have hle : 8 * front.size ≤ 8 * (front ++ (bytes ++ rest)).size := by
    rw [Array.size_append]
    omega
  have hrest : (Reader.between front (bytes ++ rest)).rest = toList bytes ++ toList rest := by
    rw [Reader.between, Reader.rest_append, toList_append]
  rw [h (.between front (bytes ++ rest)) (toList rest) hle (fun _ => Nat.dvd_mul_right 8 _) hrest,
    length_toList]
  simp [Reader.between, Reader.skip, Array.append_assoc, Nat.mul_add]

/-- Reading at the place where a writer was what it wrote next. -/
theorem Reads.run_writer {α : Type} {p : Prop} {m : Reading α} {bits : List Bool} {a : α}
    {data : Bytes} {w w' : Writer} (h : Reads p m bits a) (hp : p → 8 ∣ w.length)
    (hbits : w'.bits = w.bits ++ bits) (hon : w'.bits <+: toList data) :
    m ⟨data, w.length⟩ = .ok (a, ⟨data, w'.length⟩) := by
  obtain ⟨tl, htl⟩ := hon
  have hlength := congrArg List.length hbits
  have hsize := congrArg List.length htl
  rw [List.length_append, Writer.length_bits, Writer.length_bits] at hlength
  rw [List.length_append, length_toList, Writer.length_bits] at hsize
  have hrest : Reader.rest ⟨data, w.length⟩ = bits ++ tl := by
    rw [Reader.rest, ← htl, hbits, List.append_assoc, ← Writer.length_bits, List.drop_left']
    rfl
  have hrun := h ⟨data, w.length⟩ tl (by simp only; omega) hp hrest
  rw [hrun, Reader.skip]
  simp only [hlength]

end Bilevel

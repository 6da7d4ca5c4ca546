import Bilevel.Proofs.Bits.Pieces

/-!
# Calls of a writer and of a reader

Bits, numbers of some bits, whole bytes and numbers of two or four bytes are written in any order,
with gaps up to byte boundaries in between. A reader that is called for the same in the same order
finds them again, and stops in the last byte behind the last of them. Whole bytes have to start on
byte boundaries.

## Main definitions

* `Writer.Call`, `Reader.Call` — what is written, and what is asked for.
* `Writer.Accepts` — every call finds the writer at a place where it may be made.
* `Writer.ReadBack` — what a call writes is found again.
* `Writer.markBit` — writing a bit into a byte of which only those that are ones are set.

## Main results

* `Writer.readBack_call`, `Writer.readBack_calls` — one call, and calls one after another.
* `Reader.stays_call` — a reader never leaves its data.
* `reader_agrees_writer` — numbers are read bit by bit or in pieces, and what is written is read.
-/

namespace Bilevel

open Bits

namespace Writer

/-- What is written. -/
inductive Call where
  | bit (bit : Bool)
  /-- The lowest bits of a number. -/
  | bits (count : Nat) (n : UInt32)
  /-- Go on at the next byte boundary. -/
  | align
  | bytes (bytes : Bytes)
  | unsigned16 (n : UInt16)
  | unsigned32 (n : UInt32)
  | signed32 (n : Int32)

/-- Write what a call says. -/
def call (w : Writer) : Call → Writer
  | .bit bit => w.writeBit bit
  | .bits count n => w.writeBits count n.toNat
  | .align => w.align
  | .bytes bytes => w.writeBytes bytes
  | .unsigned16 n => w.writeUnsigned 2 n.toNat
  | .unsigned32 n => w.writeUnsigned 4 n.toNat
  | .signed32 n => w.writeSigned 4 n.toInt

def calls (w : Writer) (cs : List Call) : Writer := cs.foldl call w

/-- Whether a call may be made: a number has at most 32 bits, and whole bytes start on a byte
boundary. -/
def Call.Accepted (w : Writer) : Call → Prop
  | .bit _ | .align => True
  | .bits count _ => count ≤ 32
  | .bytes _ | .unsigned16 _ | .unsigned32 _ | .signed32 _ => w.used = 0

/-- Whether calls may be made one after another. -/
def Accepts (w : Writer) : List Call → Prop
  | [] => True
  | c :: cs => c.Accepted w ∧ (w.call c).Accepts cs

instance (w : Writer) : (c : Call) → Decidable (c.Accepted w)
  | .bit _ | .align => .isTrue trivial
  | .bits count _ => inferInstanceAs (Decidable (count ≤ 32))
  | .bytes _ | .unsigned16 _ | .unsigned32 _ | .signed32 _ =>
    inferInstanceAs (Decidable (w.used = 0))

instance decidableAccepts (w : Writer) : (cs : List Call) → Decidable (w.Accepts cs)
  | [] => .isTrue trivial
  | c :: cs => @instDecidableAnd _ _ _ (decidableAccepts (w.call c) cs)

end Writer

namespace Reader

/-- What is asked for. -/
inductive Call where
  | bit
  | bits (count : Nat)
  | align
  | bytes (count : Nat)
  | unsigned16
  | unsigned32
  | signed32

/-- What is found. -/
inductive Answer where
  | bit (bit : Bool)
  | number (n : Int)
  | bytes (bytes : Bytes)
  | nothing
  deriving DecidableEq

/-- Read what a call asks for. -/
def call : Call → Reading Answer
  | .bit => do return .bit (← readBit)
  | .bits count => do return .number (← readBits count)
  | .align => do
    align
    return .nothing
  | .bytes count => do return .bytes (← readBytes count)
  | .unsigned16 => do return .number (← readUnsigned 2)
  | .unsigned32 => do return .number (← readUnsigned 4)
  | .signed32 => do return .number (← readSigned 4)

def calls : List Call → Reading (List Answer)
  | [] => pure []
  | c :: cs => do
    let answer ← call c
    let answers ← calls cs
    return answer :: answers

/-- Whether a call may be made: whole bytes start on a byte boundary. -/
def Call.Accepted (r : Reader) : Call → Prop
  | .bit | .bits _ | .align => True
  | .bytes _ | .unsigned16 | .unsigned32 | .signed32 => r.position % 8 = 0

/-- If the read succeeds, the reader is in its data afterwards. -/
def Stays {α : Type} (r : Reader) (m : Reading α) : Prop :=
  ∀ a s, m r = .ok (a, s) → s.position ≤ 8 * s.data.size

section

variable {α β : Type} {m : Reading α} {r : Reader}

theorem Stays.map (h : r.Stays m) (g : α → β) : r.Stays (m >>= fun a => pure (g a)) := by
  intro b s hrun
  obtain ⟨a, s', hm, hpure⟩ := run_bind_eq_ok.mp hrun
  cases hpure
  exact h a s hm

theorem stays_readBit : r.Stays readBit := by
  intro bit s h
  unfold readBit at h
  split at h
  · next hlt =>
    cases h
    exact hlt
  · cases h

theorem stays_readBits (count : Nat) : r.Stays (readBits count) := by
  intro n s h
  unfold readBits at h
  split at h
  · next hroom =>
    cases h
    exact hroom
  · cases h

theorem stays_align (hle : r.position ≤ 8 * r.data.size) : r.Stays align := by
  intro a s h
  cases h
  simp only
  omega

theorem stays_readBytes (haligned : r.position % 8 = 0) (count : Nat) :
    r.Stays (readBytes count) := by
  intro bytes s h
  unfold readBytes at h
  dsimp only at h
  split at h
  · cases h
    simp only
    omega
  · cases h

end

/-- A reader in its data is still there after a call. -/
theorem stays_call {r : Reader} {c : Call} (hle : r.position ≤ 8 * r.data.size)
    (hc : c.Accepted r) : r.Stays (call c) := by
  cases c with
  | bit => exact stays_readBit.map _
  | bits count => exact (stays_readBits count).map fun n : Nat => Answer.number n
  | align => exact (stays_align hle).map _
  | bytes count => exact (stays_readBytes hc count).map _
  | unsigned16 => exact ((stays_readBytes hc 2).map _).map fun n : Nat => Answer.number n
  | unsigned32 => exact ((stays_readBytes hc 4).map _).map fun n : Nat => Answer.number n
  | signed32 => exact (((stays_readBytes hc 4).map _).map _).map _

end Reader

namespace Writer.Call

/-- The call that reads what is written. -/
def reading : Call → Reader.Call
  | .bit _ => .bit
  | .bits count _ => .bits count
  | .align => .align
  | .bytes data => .bytes data.size
  | .unsigned16 _ => .unsigned16
  | .unsigned32 _ => .unsigned32
  | .signed32 _ => .signed32

/-- What is found of it. Of a number that is written in some bits, only these are found. -/
def answer : Call → Reader.Answer
  | .bit b => .bit b
  | .bits count n => .number (n.toNat % 2 ^ count : Nat)
  | .align => .nothing
  | .bytes data => .bytes data
  | .unsigned16 n => .number n.toNat
  | .unsigned32 n => .number n.toNat
  | .signed32 n => .number n.toInt

end Writer.Call

/-! ## One call -/

/-- Only the lowest bits of a number matter. -/
theorem Bits.lowBits_mod (count n : Nat) : lowBits count (n % 2 ^ count) = lowBits count n := by
  apply List.ext_getElem?
  intro i
  by_cases hi : i < count
  · rw [getElem?_lowBits hi, getElem?_lowBits hi, Nat.testBit_mod_two_pow,
      decide_eq_true (by omega : count - 1 - i < count), Bool.true_and]
  · rw [List.getElem?_eq_none (by rw [length_lowBits]; omega),
      List.getElem?_eq_none (by rw [length_lowBits]; omega)]

/-- A read whose value is put in another form. -/
theorem Reads.map {α β : Type} {p : Prop} {m : Reading α} {bits : List Bool} {a : α}
    (h : Reads p m bits a) (g : α → β) : Reads p (m >>= fun a => pure (g a)) bits (g a) := by
  have hm := h.bind (f := fun a => pure (g a)) (reads_pure (p := False) (g a)) False.elim
  rwa [List.append_nil] at hm

namespace Writer

theorem length_of_aligned {w : Writer} (h : w.used = 0) : w.length = 8 * w.data.size := if_pos h

/-- Between two times a writer has only added bits, and the read `m` finds `a` in them, whatever
was added later. -/
structure ReadBack {α : Type} (w w' : Writer) (m : Reading α) (a : α) : Prop where
  valid : w'.Valid
  grows : w.bits <+: w'.bits
  run : ∀ data : Bytes, w'.bits <+: toList data →
    m ⟨data, w.length⟩ = .ok (a, ⟨data, w'.length⟩)

section

variable {α β : Type} {w w' w'' : Writer} {m : Reading α} {f : α → Reading β} {a : α} {b : β}

theorem readBack_pure (h : w.Valid) (a : α) : ReadBack w w (pure a) a :=
  ⟨h, List.prefix_rfl, fun _ _ => rfl⟩

theorem ReadBack.bind (h : ReadBack w w' m a) (h' : ReadBack w' w'' (f a) b) :
    ReadBack w w'' (m >>= f) b :=
  ⟨h'.valid, h.grows.trans h'.grows, fun data hdata =>
    (run_bind_ok (h.run data (h'.grows.trans hdata))).trans (h'.run data hdata)⟩

theorem readBack_of_reads {p : Prop} {bits : List Bool} (h : Reads p m bits a) (hp : p → w.used = 0)
    (hbits : w'.bits = w.bits ++ bits) (hvalid : w'.Valid) : ReadBack w w' m a :=
  ⟨hvalid, hbits ▸ List.prefix_append _ _, fun _ hdata =>
    h.run_writer (fun hp' => length_of_aligned (hp hp') ▸ Nat.dvd_mul_right 8 _) hbits hdata⟩

theorem readBack_align (h : w.Valid) : ReadBack w w.align Reader.align () := by
  refine ⟨valid_of_aligned rfl, bits_align h, fun data _ => ?_⟩
  rw [length_align h]
  rfl

theorem readBack_writeBytes {bytes : Bytes} (h : ReadsBytes m bytes a) (hw : w.used = 0) :
    ReadBack w (w.writeBytes bytes) m a :=
  readBack_of_reads h (fun _ => hw) (bits_writeBytes hw bytes) (valid_of_aligned hw)

end

/-- What a call writes is found by the call that reads it. -/
theorem readBack_call {w : Writer} {c : Call} (h : w.Valid) (hc : c.Accepted w) :
    ReadBack w (w.call c) (Reader.call c.reading) c.answer := by
  cases c with
  | bit bit =>
    obtain ⟨hbits, hvalid⟩ := bits_writeBit h bit
    exact readBack_of_reads ((reads_readBit bit).map _) False.elim hbits hvalid
  | bits count n =>
    obtain ⟨hbits, hvalid⟩ := bits_writeBits h count n.toNat
    have hread := reads_readBits (Nat.mod_lt n.toNat (Nat.two_pow_pos count))
    rw [lowBits_mod] at hread
    exact readBack_of_reads (hread.map fun n : Nat => Reader.Answer.number n) False.elim hbits hvalid
  | align => exact (readBack_align h).bind (readBack_pure (valid_of_aligned rfl) _)
  | bytes bytes => exact readBack_writeBytes ((readsBytes_readBytes bytes).bind_pure _) hc
  | unsigned16 n =>
    have hread : ReadsBytes (Reader.readUnsigned 2) (toBigEndian 2 n.toNat) n.toNat :=
      readsBytes_readUnsigned n.toNat_lt
    exact readBack_writeBytes (hread.bind_pure fun n : Nat => Reader.Answer.number n) hc
  | unsigned32 n =>
    have hread : ReadsBytes (Reader.readUnsigned 4) (toBigEndian 4 n.toNat) n.toNat :=
      readsBytes_readUnsigned n.toNat_lt
    exact readBack_writeBytes (hread.bind_pure fun n : Nat => Reader.Answer.number n) hc
  | signed32 n =>
    have hlow := n.le_toInt
    have hhigh := n.toInt_lt
    have hread : ReadsBytes (Reader.readSigned 4) (toBigEndian 4 (ofSigned 32 n.toInt)) n.toInt :=
      readsBytes_readSigned (by omega) (by omega)
    exact readBack_writeBytes (hread.bind_pure _) hc

/-! ## Calls one after another -/

theorem readBack_calls {w : Writer} {cs : List Call} (h : w.Valid) (hcs : w.Accepts cs) :
    ReadBack w (w.calls cs) (Reader.calls (cs.map Call.reading)) (cs.map Call.answer) := by
  induction cs generalizing w with
  | nil => exact readBack_pure h []
  | cons c cs ih =>
    have hfirst := readBack_call h hcs.1
    have hrest := ih hfirst.valid hcs.2
    exact hfirst.bind (hrest.bind (readBack_pure hrest.valid _))

/-! ## Setting bits -/

/-- Write a bit by setting it if it is one. The byte that is opened for the first bit on a byte
boundary is zero. -/
def markBit (w : Writer) (bit : Bool) : Writer :=
  let data := if w.used = 0 then w.data.push 0 else w.data
  { data := if bit then data.modify (data.size - 1) (· ||| mask w.used) else data
    used := (w.used + 1) % 8 }

/-- There are only zeros behind the bits that were written. -/
def Padded (w : Writer) : Prop := ∀ i, w.length ≤ i → bitAt w.data i = false

/-- The bytes with room for one more bit. -/
def opened (w : Writer) : Bytes := if w.used = 0 then w.data.push 0 else w.data

section

variable {w : Writer}

theorem padded_of_aligned (h : w.used = 0) : w.Padded := fun _ hi =>
  bitAt_of_size_le (length_of_aligned h ▸ hi)

theorem bitAt_opened (w : Writer) (i : Nat) : bitAt w.opened i = bitAt w.data i := by
  unfold opened
  split
  · rw [← Array.append_singleton, bitAt_append]
    split
    · rfl
    · have hzero : ∀ j, bitAt #[0] j = false := by
        intro j
        by_cases hj : j / 8 = 0
        · simp [bitAt, hj]
        · rw [bitAt_of_size_le (by simp; omega)]
      rw [hzero, bitAt_of_size_le (by omega)]
  · rfl

theorem length_eq_opened (h : w.Valid) :
    w.length = 8 * (w.opened.size - 1) + w.used ∧ 0 < w.opened.size := by
  have hpos := h.pos
  unfold length opened
  split
  · simp_all
  · next hne => exact ⟨rfl, hpos hne⟩

theorem writeBit_eq (h : w.Valid) (bit : Bool) :
    w.writeBit bit = ⟨setBit w.opened w.length bit, (w.used + 1) % 8⟩ := by
  rw [(length_eq_opened h).1]
  rfl

theorem Padded.writeBit (h : w.Valid) (hp : w.Padded) (bit : Bool) : (w.writeBit bit).Padded := by
  obtain ⟨hlength, hpos⟩ := length_eq_opened h
  have hlt := h.used_lt
  intro i hi
  have hnext : (w.writeBit bit).length = w.length + 1 := by
    rw [← length_bits, (bits_writeBit h bit).1, List.length_append, length_bits]
    rfl
  rw [writeBit_eq h, bitAt_setBit _ _ _ _ (by omega), if_neg (by omega), bitAt_opened]
  exact hp i (by omega)

/-- Clearing a bit that is to be zero has no effect, since it is zero before. -/
theorem writeBit_eq_markBit (h : w.Valid) (hp : w.Padded) (bit : Bool) :
    w.writeBit bit = w.markBit bit := by
  obtain ⟨hlength, hpos⟩ := length_eq_opened h
  have hlt := h.used_lt
  have hmark : w.markBit bit = ⟨if bit then w.opened.modify (w.opened.size - 1) (· ||| mask w.used)
      else w.opened, (w.used + 1) % 8⟩ := rfl
  rw [writeBit_eq h, hmark]
  congr 1
  cases bit with
  | true =>
    rw [setBit, hlength, show (8 * (w.opened.size - 1) + w.used) / 8 = w.opened.size - 1 by omega,
      show (8 * (w.opened.size - 1) + w.used) % 8 = w.used by omega]
    rfl
  | false =>
    rw [if_neg Bool.false_ne_true]
    refine bytes_ext (size_setBit _ _ _) fun i _ => ?_
    rw [bitAt_setBit _ _ _ _ (by omega)]
    split
    · next heq => rw [heq, bitAt_opened, hp _ (Nat.le_refl _)]
    · rfl

theorem Padded.writeBits (h : w.Valid) (hp : w.Padded) (bits : List Bool) :
    bits.foldl Writer.writeBit w = bits.foldl markBit w ∧ (bits.foldl Writer.writeBit w).Padded := by
  induction bits generalizing w with
  | nil => exact ⟨rfl, hp⟩
  | cons bit bits ih =>
    rw [List.foldl_cons, List.foldl_cons, ← writeBit_eq_markBit h hp]
    exact ih (bits_writeBit h bit).2 (hp.writeBit h bit)

theorem Padded.call {c : Call} (h : w.Valid) (hp : w.Padded) (hc : c.Accepted w) :
    (w.call c).Padded := by
  cases c with
  | bit b => exact hp.writeBit h b
  | bits count n => exact (hp.writeBits h _).2
  | align => exact padded_of_aligned rfl
  | bytes | unsigned16 | unsigned32 | signed32 => exact padded_of_aligned hc

theorem Padded.calls {cs : List Call} (h : w.Valid) (hp : w.Padded) (hcs : w.Accepts cs) :
    (w.calls cs).Padded := by
  induction cs generalizing w with
  | nil => exact hp
  | cons c cs ih => exact ih (readBack_call h hcs.1).valid (hp.call h hcs.1) hcs.2

end

end Writer

/-- Wherever a reader is, a number of up to 32 bits is that of its single bits, most significant
first, and so is the one that is put together from pieces of bytes. It takes up just these bits, and
is an unexpected end of the data if there are fewer. No call moves a reader behind the end of the
data. What calls of a writer write, the same calls of a reader find; the reader is behind the last
bit then, and at the end of the data on the next byte boundary. It makes no difference if the writer
only sets the bits that are ones. -/
theorem reader_agrees_writer :
    (∀ (r : Reader) (count : Nat), r.position ≤ 8 * r.data.size → count ≤ 32 →
      Reader.readBits count r = Reader.readEach count 0 r ∧
      (Reader.readPieces count 0 r).map (Prod.map UInt32.toNat id) = Reader.readBits count r ∧
      (count ≤ r.bitsLeft → ∃ n < 2 ^ count, Reader.readBits count r = .ok (n, r.skip count)) ∧
      (r.bitsLeft < count → Reader.readBits count r = .error .unexpectedEnd)) ∧
    (∀ (r : Reader) (c : Reader.Call), r.position ≤ 8 * r.data.size → c.Accepted r →
      r.Stays (Reader.call c)) ∧
    ∀ cs : List Writer.Call, Writer.empty.Accepts cs →
      let w := Writer.empty.calls cs
      Reader.calls (cs.map Writer.Call.reading) (.ofBytes w.data) =
        .ok (cs.map Writer.Call.answer, ⟨w.data, w.length⟩) ∧
      Reader.align ⟨w.data, w.length⟩ = .ok ((), ⟨w.data, 8 * w.data.size⟩) ∧
      (w.used = 0 → w.length = 8 * w.data.size) ∧
      ∀ bits : List Bool, bits.foldl Writer.writeBit w = bits.foldl Writer.markBit w := by
  refine ⟨fun r count hle hcount => ?_, fun r c => Reader.stays_call, fun cs hcs => ?_⟩
  · exact ⟨Reader.readBits_eq_readEach count hle, Reader.readPieces_eq_readBits hcount hle,
      (Reader.exists_readBits · hle), Reader.readBits_of_bitsLeft_lt⟩
  · intro w
    have hread := Writer.readBack_calls Writer.valid_empty hcs
    have hend := (Writer.readBack_align hread.valid).run w.data List.prefix_rfl
    rw [Writer.length_of_aligned (w := w.align) rfl] at hend
    have hpadded := (Writer.padded_of_aligned rfl).calls Writer.valid_empty hcs
    exact ⟨hread.run w.data (Writer.bits_prefix hread.valid), hend, Writer.length_of_aligned,
      fun bits => (hpadded.writeBits hread.valid bits).1⟩

/-- Nine bits from the second one on, and calls of all kinds. -/
theorem reader_agrees_writer_mixed :
    let r : Reader := ⟨#[0xB3, 0x5C], 1⟩
    let cs : List Writer.Call := [.bit true, .bits 4 0xFD, .align, .unsigned16 0xABCD, .bits 0 7,
      .signed32 (-2), .bytes #[1, 2], .unsigned32 5, .bits 32 0xFFFFFFFE, .bits 3 5]
    (r.position ≤ 8 * r.data.size ∧ 9 ≤ 32 ∧ Reader.Call.Accepted r .align ∧
        Writer.empty.Accepts cs) ∧
      Reader.readEach 9 0 r = .ok (0b011001101, ⟨#[0xB3, 0x5C], 10⟩) ∧
      r.Stays (Reader.call .align) ∧
      Reader.calls (cs.map Writer.Call.reading) (.ofBytes (Writer.empty.calls cs).data) =
        .ok ([.bit true, .number 13, .nothing, .number 0xABCD, .number 0, .number (-2),
          .bytes #[1, 2], .number 5, .number 0xFFFFFFFE, .number 5],
          ⟨(Writer.empty.calls cs).data, 139⟩) := by
  intro r cs
  have hle : r.position ≤ 8 * r.data.size := by decide
  have hcs : Writer.empty.Accepts cs := by decide +kernel
  have hlength : (Writer.empty.calls cs).length = 139 := by decide +kernel
  have hnumber := (reader_agrees_writer.1 r 9 hle (by decide)).1
  have hstays := reader_agrees_writer.2.1 r .align hle trivial
  obtain ⟨hcalls, -⟩ := reader_agrees_writer.2.2 cs hcs
  rw [hlength] at hcalls
  exact ⟨⟨hle, by decide, trivial, hcs⟩, hnumber.symm.trans (by decide +kernel), hstays, hcalls⟩

end Bilevel

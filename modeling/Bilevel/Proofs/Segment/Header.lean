import Bilevel.Proofs.Bits.Reads
import Bilevel.Segment.Header

/-!
# Reading back segment headers

A segment header whose numbers fit their fields is read back as it was written. The check on the
number of references asks for the bytes of these references, so reading the retention flags takes
for granted that something follows them.

There is more than one way to write a header. Whichever of them was read, the numbers of the header
fit their fields.

## Main results

* `SegmentHeader.readsBytes` — headers are read back.
* `SegmentHeader.gives_read` — headers that are read can be written.
* `SegmentHeader.header_roundTrip` — both together.
-/

namespace Bilevel

open Bits

/-! ## Numbers in several parts -/

theorem toBigEndian_mod (count n : Nat) :
    toBigEndian count (n % 256 ^ count) = toBigEndian count n := by
  induction count generalizing n with
  | zero => rfl
  | succ count ih =>
    have hdiv : n % 256 ^ (count + 1) / 256 = n / 256 % 256 ^ count := by
      rw [pow_succ, Nat.mul_comm, Nat.mod_mul_right_div_self]
    have hlow : UInt8.ofNat (n % 256 ^ (count + 1)) = UInt8.ofNat n := by
      apply UInt8.toNat_inj.mp
      rw [UInt8.toNat_ofNat', UInt8.toNat_ofNat', pow_succ]
      exact Nat.mod_mul_left_mod n (256 ^ count) 256
    rw [toBigEndian, toBigEndian, hdiv, ih, hlow]

theorem toBigEndian_add (m n number : Nat) : toBigEndian (m + n) number =
    toBigEndian m (number / 256 ^ n) ++ toBigEndian n number := by
  induction n generalizing number with
  | zero => simp [toBigEndian]
  | succ n ih =>
    rw [← Nat.add_assoc, toBigEndian, ih, toBigEndian, Nat.div_div_eq_div_mul, pow_succ',
      Array.push_append]

namespace SegmentHeader

/-! ## Flags -/

theorem flagByte_succ (flag : Nat → Bool) (count : Nat) :
    flagByte flag (count + 1) = flagByte flag count + (flag count).toNat * 2 ^ count := by
  unfold flagByte
  rw [List.range_succ, List.foldl_append]
  simp [Nat.shiftLeft_eq]

theorem flagByte_lt (flag : Nat → Bool) (count : Nat) : flagByte flag count < 2 ^ count := by
  induction count with
  | zero => simp [flagByte]
  | succ count ih =>
    rw [flagByte_succ, pow_succ]
    have hflag : (flag count).toNat * 2 ^ count ≤ 1 * 2 ^ count :=
      Nat.mul_le_mul_right _ (Bool.toNat_le _)
    omega

theorem testBit_flagByte (flag : Nat → Bool) {count i : Nat} (h : i < count) :
    (flagByte flag count).testBit i = flag i := by
  induction count with
  | zero => omega
  | succ count ih =>
    rw [flagByte_succ, Nat.add_comm, Nat.mul_comm,
      Nat.testBit_two_pow_mul_add _ (flagByte_lt flag count)]
    split
    · next hlt => exact ih hlt
    · next hge =>
      obtain rfl : i = count := by omega
      rw [Nat.sub_self]
      cases flag i <;> rfl

/-- The bytes of flags, eight in each. -/
def flagBytes (flag : Nat → Bool) (count : Nat) : Bytes :=
  ((List.range count).map fun chunk =>
    UInt8.ofNat (flagByte (fun i => flag (8 * chunk + i)) 8)).toArray

@[simp] theorem size_flagBytes (flag : Nat → Bool) (count : Nat) :
    (flagBytes flag count).size = count := by
  simp [flagBytes]

theorem flagAt_flagBytes (flag : Nat → Bool) {count i : Nat} (h : i < 8 * count) :
    flagAt (flagBytes flag count) i = flag i := by
  have hlt : i / 8 < count := by omega
  have hbyte := flagByte_lt (fun j => flag (8 * (i / 8) + j)) 8
  unfold flagAt flagBytes
  rw [Array.getD_eq_getD_getElem?, List.getElem?_toArray, List.getElem?_map,
    List.getElem?_range hlt, Option.map_some, Option.getD_some, UInt8.toNat_ofNat',
    Nat.mod_eq_of_lt hbyte, testBit_flagByte _ (by omega), Nat.div_add_mod]

theorem foldl_writeFlags (flag : Nat → Bool) (count : Nat) (w : Writer) :
    (List.range count).foldl
        (fun w chunk => w.writeUnsigned 1 (flagByte (fun i => flag (8 * chunk + i)) 8)) w =
      w.writeBytes (flagBytes flag count) := by
  induction count with
  | zero => simp [flagBytes, Writer.writeBytes]
  | succ count ih =>
    rw [List.range_succ, List.foldl_append, ih]
    simp [flagBytes, List.range_succ, Writer.writeUnsigned, Writer.writeBytes, toBigEndian]

/-! ## References -/

/-- The bytes of references. -/
def referredBytes (width : Nat) (referred : List Nat) : Bytes :=
  referred.foldr (fun n rest => toBigEndian width n ++ rest) #[]

theorem size_referredBytes (width : Nat) (referred : List Nat) :
    (referredBytes width referred).size = referred.length * width := by
  induction referred with
  | nil => simp [referredBytes]
  | cons n referred ih =>
    simp only [referredBytes, List.foldr_cons] at ih ⊢
    rw [Array.size_append, size_toBigEndian, ih, List.length_cons]
    ring

theorem foldl_writeReferred (width : Nat) (referred : List Nat) (w : Writer) :
    referred.foldl (fun w n => w.writeUnsigned width n) w =
      w.writeBytes (referredBytes width referred) :=
  Writer.foldl_writeBytes (toBigEndian width) referred w

theorem readsBytes_readReferred {width : Nat} {referred : List Nat}
    (h : ∀ n ∈ referred, n < 256 ^ width) :
    ReadsBytes (readReferred width referred.length) (referredBytes width referred) referred := by
  induction referred with
  | nil => exact readsBytes_pure []
  | cons n referred ih =>
    refine (readsBytes_readUnsigned (h n List.mem_cons_self)).bind ?_
    exact (ih fun m hm => h m (List.mem_cons_of_mem n hm)).bind_pure (n :: ·)

/-! ## The count of references -/

/-- A read on a byte boundary that takes up whole bytes and asks for as many bytes as `room` behind
them. -/
def ReadsBefore {α : Type} (room : Nat) (m : Reading α) (bytes : Bytes) (a : α) : Prop :=
  ∀ (r : Reader) (tl : List Bool), r.position ≤ 8 * r.data.size → 8 ∣ r.position →
    r.rest = toList bytes ++ tl → 8 * room ≤ tl.length → m r = .ok (a, r.skip (8 * bytes.size))

section

variable {α β : Type} {room : Nat} {m : Reading α} {f : α → Reading β} {bytes bytes' : Bytes}
  {a : α} {b : β}

theorem ReadsBytes.before (h : ReadsBytes m bytes a) : ReadsBefore room m bytes a := by
  intro r tl hle hr hrest _
  rw [← length_toList]
  exact h r tl hle (fun _ => hr) hrest

theorem ReadsBefore.mono {room' : Nat} (h : ReadsBefore room m bytes a) (hle : room ≤ room') :
    ReadsBefore room' m bytes a := fun r tl hpos hr hrest hroom =>
  h r tl hpos hr hrest (by omega)

theorem ReadsBefore.readsBytes (h : ReadsBefore 0 m bytes a) : ReadsBytes m bytes a := by
  intro r tl hle hr hrest
  rw [length_toList]
  exact h r tl hle (hr trivial) hrest (Nat.zero_le _)

theorem ReadsBefore.bind (h : ReadsBefore (bytes'.size + room) m bytes a)
    (h' : ReadsBefore room (f a) bytes' b) :
    ReadsBefore room (m >>= f) (bytes ++ bytes') b := by
  intro r tl hle hr hrest hroom
  rw [toList_append, List.append_assoc] at hrest
  have hfirst := h r (toList bytes' ++ tl) hle hr hrest (by simp; omega)
  have hle' := Reader.position_add_le hle hrest
  rw [length_toList] at hle'
  have hrest' : (r.skip (8 * bytes.size)).rest = toList bytes' ++ tl := by
    rw [← length_toList]
    exact Reader.rest_skip_append hrest
  have hsecond := h' (r.skip (8 * bytes.size)) tl hle' (by simp; omega) hrest' hroom
  simp only [Bind.bind, StateT.bind, Except.bind, hfirst, hsecond, Reader.skip_skip,
    Array.size_append, Nat.mul_add]

/-- A check that asks for bytes that are there. -/
theorem ReadsBefore.check {size : Nat} {refuse : Reading α} (h : ReadsBefore room m bytes a)
    (hsize : size ≤ bytes.size + room) :
    ReadsBefore room (get >>= fun r => if r.bytesLeft < size then refuse else m) bytes a := by
  intro r tl hle hr hrest hroom
  have hleft := r.length_rest
  rw [hrest, List.length_append, length_toList] at hleft
  have henough : ¬r.bytesLeft < size := by
    unfold Reader.bytesLeft
    omega
  rw [run_bind_get, if_neg henough]
  exact h r tl hle hr hrest hroom

end

/-- The bytes of the number of references and of the retention flags. -/
def retentionBytes (h : SegmentHeader) : Bytes :=
  let count := h.referred.length
  let flag i := h.retention.getD i false
  if count ≤ 4 then toBigEndian 1 (count * 32 + flagByte flag (count + 1))
  else toBigEndian 1 (0xE0 ||| count / 2 ^ 24) ++ (toBigEndian 3 (count % 2 ^ 24) ++
    flagBytes flag ((count + 8) / 8))

theorem writeRetention_eq (h : SegmentHeader) (w : Writer) :
    h.writeRetention w = w.writeBytes h.retentionBytes := by
  unfold writeRetention retentionBytes
  dsimp only
  split
  · rfl
  · have hcount : toBigEndian 4 (0xE0000000 ||| h.referred.length) =
        toBigEndian 1 (0xE0 ||| h.referred.length / 2 ^ 24) ++
          toBigEndian 3 (h.referred.length % 2 ^ 24) := by
      have hhigh : (0xE0000000 ||| h.referred.length) / 2 ^ 24 =
          0xE0 ||| h.referred.length / 2 ^ 24 := Nat.or_div_two_pow
      have hlow : (0xE0000000 ||| h.referred.length) % 2 ^ 24 = h.referred.length % 2 ^ 24 := by
        rw [Nat.or_mod_two_pow]
        exact Nat.zero_or _
      rw [toBigEndian_add 1 3, show 256 ^ 3 = 2 ^ 24 from rfl, hhigh, ← toBigEndian_mod 3,
        show 256 ^ 3 = 2 ^ 24 from rfl, hlow]
    rw [foldl_writeFlags fun i => h.retention.getD i false]
    simp [Writer.writeUnsigned, Writer.writeBytes, hcount, Array.append_assoc]

/-- Whether the numbers of a header fit their fields. -/
structure Fits (h : SegmentHeader) : Prop where
  number : h.number ≤ 0xFFFFFFFF
  retention : h.retention.length = h.referred.length + 1
  count : h.referred.length < 2 ^ 29
  referred : ∀ n ∈ h.referred, n < 256 ^ referredWidth h.number
  page : h.page ≤ 0xFFFFFFFF
  dataLength : ∀ n ∈ h.dataLength, n < unknownLength

instance (h : SegmentHeader) : Decidable h.Fits :=
  decidable_of_iff (((h.number ≤ 0xFFFFFFFF ∧ h.page ≤ 0xFFFFFFFF) ∧
      ∀ n ∈ h.dataLength, n < unknownLength) ∧
    (h.retention.length = h.referred.length + 1 ∧ h.referred.length < 2 ^ 29) ∧
      ∀ n ∈ h.referred, n < 256 ^ referredWidth h.number)
    ⟨fun ⟨⟨⟨hnumber, hpage⟩, hlength⟩, ⟨hretention, hcount⟩, hreferred⟩ =>
      ⟨hnumber, hretention, hcount, hreferred, hpage, hlength⟩,
    fun h => ⟨⟨⟨h.number, h.page⟩, h.dataLength⟩, ⟨h.retention, h.count⟩, h.referred⟩⟩

theorem map_flags_eq {flags : List Bool} {count : Nat} (h : flags.length = count)
    {read : Nat → Bool} (hread : ∀ i < count, read i = flags.getD i false) :
    (List.range count).map read = flags := by
  apply List.ext_getElem (by simp [h])
  intro i hi hi'
  rw [List.getElem_map, List.getElem_range, hread i (by omega), List.getD_eq_getElem?_getD,
    List.getElem?_eq_getElem hi', Option.getD_some]

/-- Up to four references are counted in one byte, beside their flags. -/
theorem readsBytes_readRetention {h : SegmentHeader} (hfits : h.Fits)
    (hshort : h.referred.length ≤ 4) :
    ReadsBytes (readRetention h.number) h.retentionBytes (h.referred.length, h.retention) := by
  unfold retentionBytes readRetention
  dsimp only
  rw [if_pos hshort]
  have hflags := flagByte_lt (fun i => h.retention.getD i false) (h.referred.length + 1)
  have hpow : 2 ^ (h.referred.length + 1) ≤ 2 ^ 5 := Nat.pow_le_pow_right (by decide) (by omega)
  have hbits : ∀ i < h.referred.length + 1,
      (h.referred.length * 32 + flagByte (fun i => h.retention.getD i false)
        (h.referred.length + 1)).testBit i = h.retention.getD i false := by
    intro i hi
    rw [Nat.mul_comm, show 32 = 2 ^ 5 from rfl,
      Nat.testBit_two_pow_mul_add _ (by omega), if_pos (by omega), testBit_flagByte _ hi]
  have hdiv : (h.referred.length * 32 + flagByte (fun i => h.retention.getD i false)
      (h.referred.length + 1)) / 32 = h.referred.length := by omega
  refine (readsBytes_readUnsigned (by omega)).bind_last ?_
  simp only [hdiv]
  rw [if_neg (by omega), if_neg (by omega), map_flags_eq hfits.retention hbits]
  exact readsBytes_pure _

/-- The check on the number of references asks for their bytes. -/
theorem readsBefore_readRetention {h : SegmentHeader} (hfits : h.Fits) :
    ReadsBefore (h.referred.length * referredWidth h.number) (readRetention h.number)
      h.retentionBytes (h.referred.length, h.retention) := by
  have hcount := hfits.count
  by_cases hshort : h.referred.length ≤ 4
  · exact ReadsBytes.before (readsBytes_readRetention hfits hshort)
  · unfold retentionBytes readRetention
    dsimp only
    rw [if_neg hshort]
    have hfirst : 0xE0 ||| h.referred.length / 2 ^ 24 = 0xE0 + h.referred.length / 2 ^ 24 :=
      (Nat.two_pow_add_eq_or_of_lt (i := 5) (by omega) 7).symm
    have hdiv : (0xE0 + h.referred.length / 2 ^ 24) / 32 = 7 := by omega
    have hmod : ((0xE0 + h.referred.length / 2 ^ 24) % 32) <<< 24 +
        h.referred.length % 2 ^ 24 = h.referred.length := by
      rw [Nat.shiftLeft_eq]
      omega
    rw [hfirst]
    refine (ReadsBytes.before (readsBytes_readUnsigned (by omega))).bind ?_
    simp only [hdiv]
    rw [if_neg (by omega), if_pos trivial]
    refine (ReadsBytes.before (readsBytes_readUnsigned (by omega))).bind ?_
    simp only [hmod]
    refine ReadsBefore.check (ReadsBytes.before ?_) (by rw [size_flagBytes])
    have hbytes := readsBytes_readBytes
      (flagBytes (fun i => h.retention.getD i false) ((h.referred.length + 8) / 8))
    rw [size_flagBytes] at hbytes
    have hflags : (List.range (h.referred.length + 1)).map
        (flagAt (flagBytes (fun i => h.retention.getD i false) ((h.referred.length + 8) / 8))) =
          h.retention :=
      map_flags_eq hfits.retention fun i hi => flagAt_flagBytes _ (by omega)
    refine hbytes.bind_last ?_
    rw [hflags]
    exact readsBytes_pure _

/-- All bytes of a header. -/
def bytes (h : SegmentHeader) : Bytes :=
  let longPage := decide (0xFF < h.page)
  toBigEndian 4 h.number ++
    (toBigEndian 1 (h.kind.code + 64 * longPage.toNat + 128 * h.deferredNonRetain.toNat) ++
      (h.retentionBytes ++ (referredBytes (referredWidth h.number) h.referred ++
        (toBigEndian (if longPage then 4 else 1) h.page ++
          toBigEndian 4 (h.dataLength.getD unknownLength)))))

theorem write_eq (h : SegmentHeader) (w : Writer) : h.write w = w.writeBytes h.bytes := by
  unfold write bytes
  simp only [writeRetention_eq, foldl_writeReferred]
  simp [Writer.writeUnsigned, Writer.writeBytes, Array.append_assoc]

theorem flags_eq {code : Nat} (hcode : code < 64) (long deferred : Bool) :
    let flags := code + 64 * long.toNat + 128 * deferred.toNat
    flags < 256 ∧ flags % 64 = code ∧ flags.testBit 6 = long ∧ flags.testBit 7 = deferred := by
  simp only [Nat.testBit_eq_decide_div_mod_eq]
  cases long <;> cases deferred <;> simp <;> omega

/-- A header is read back as it was written. -/
theorem readsBytes {h : SegmentHeader} (hfits : h.Fits) : ReadsBytes read h.bytes h := by
  obtain ⟨hflags, hkind, hlong, hdeferred⟩ :=
    flags_eq h.kind.code_lt (decide (0xFF < h.page)) h.deferredNonRetain
  have hpage : h.page < 256 ^ (if decide (0xFF < h.page) = true then 4 else 1) := by
    have := hfits.page
    split
    · omega
    · next hshort =>
      rw [decide_eq_true_eq] at hshort
      omega
  have hlength : h.dataLength.getD unknownLength < 256 ^ 4 := by
    cases hdata : h.dataLength with
    | none => decide
    | some n =>
      have hn := hfits.dataLength n hdata
      unfold unknownLength at hn
      rw [Option.getD_some]
      omega
  have hopen : (if h.dataLength.getD unknownLength = unknownLength then none
      else some (h.dataLength.getD unknownLength)) = h.dataLength := by
    cases hdata : h.dataLength with
    | none => rfl
    | some n => exact if_neg (hfits.dataLength n hdata).ne
  unfold bytes
  refine (readsBytes_readUnsigned (by have := hfits.number; omega)).bind ?_
  refine (readsBytes_readUnsigned hflags).bind ?_
  simp only [hkind, hlong, hdeferred, SegmentKind.ofCode?_code]
  refine ReadsBefore.readsBytes (((readsBefore_readRetention hfits).mono ?_).bind
    (ReadsBytes.before ?_))
  · rw [Array.size_append, size_referredBytes]
    omega
  refine (readsBytes_readReferred hfits.referred).bind ?_
  refine (readsBytes_readUnsigned hpage).bind ?_
  have hlast := (readsBytes_readUnsigned hlength).bind_pure fun length =>
    SegmentHeader.mk h.number h.kind h.deferredNonRetain h.retention h.referred h.page
      (if length = unknownLength then none else some length)
  simp only [hopen] at hlast
  exact hlast

theorem size_retentionBytes_pos (h : SegmentHeader) : 1 ≤ h.retentionBytes.size := by
  unfold retentionBytes
  dsimp only
  split <;> simp [size_toBigEndian]

/-- No header is shorter than the smallest one. -/
theorem minHeaderBytes_le (h : SegmentHeader) : 11 ≤ h.bytes.size := by
  have := h.size_retentionBytes_pos
  unfold bytes
  simp only [Array.size_append, size_toBigEndian]
  split <;> omega

/-! ## Headers that are read -/

/-- References are counted in no more than 29 bits, and there is a flag for each of them and one for
the segment itself. -/
theorem gives_readRetention (number : Nat) :
    Gives (fun read : Nat × List Bool => read.1 < 2 ^ 29 ∧ read.2.length = read.1 + 1)
      (readRetention number) := by
  unfold readRetention
  refine (gives_readUnsigned 1).bind fun first hfirst => ?_
  dsimp only
  split
  · exact .throw _
  split
  · refine (gives_readUnsigned 3).bind fun rest hrest => .bind_any fun r => ?_
    have hcount : (first % 32) <<< 24 + rest < 2 ^ 29 := by
      rw [Nat.shiftLeft_eq]
      omega
    split
    · exact .bind_any fun _ => .bind_any fun bytes => .pure ⟨hcount, by simp⟩
    · exact .bind_any fun bytes => .pure ⟨hcount, by simp⟩
  · exact .pure ⟨by dsimp only; omega, by simp⟩

theorem gives_readReferred (width count : Nat) :
    Gives (fun referred => referred.length = count ∧ ∀ n ∈ referred, n < 256 ^ width)
      (readReferred width count) := by
  induction count with
  | zero => exact .pure ⟨rfl, fun _ h => absurd h List.not_mem_nil⟩
  | succ count ih =>
    refine (gives_readUnsigned width).bind fun n hn => ih.bind fun rest hrest => .pure ?_
    exact ⟨congrArg (· + 1) hrest.1, List.forall_mem_cons.mpr ⟨hn, hrest.2⟩⟩

/-- The numbers of a header that is read fit their fields. -/
theorem gives_read : Gives Fits read := by
  unfold read
  refine (gives_readUnsigned 4).bind fun number hnumber => .bind_any fun flags => ?_
  split
  · refine (gives_readRetention number).bind fun ⟨count, retention⟩ hretention => ?_
    obtain ⟨hcount, hflags⟩ := hretention
    refine (gives_readReferred _ count).bind fun referred ⟨hreferred, hwidth⟩ => ?_
    refine (gives_readUnsigned _).bind fun page hpage => ?_
    refine (gives_readUnsigned 4).bind fun length hlength => .pure ?_
    have hpage' : page < 256 ^ 4 :=
      hpage.trans_le (Nat.pow_le_pow_right (by decide) (by split <;> decide))
    refine ⟨by dsimp only; omega, hflags.trans (congrArg (· + 1) hreferred.symm),
      hreferred.trans_lt hcount, hwidth, by dsimp only; omega, fun n hn => ?_⟩
    dsimp only at hn
    split at hn
    · cases hn
    · next hknown =>
      obtain rfl := Option.some.inj hn
      unfold unknownLength at hknown ⊢
      omega
  · exact .throw _

/-! ## Writing and reading -/

/-- Wherever the header is written and whatever follows it, it is read back as it was, and reading
stops right behind it. -/
def ReadBack (h : SegmentHeader) : Prop :=
  ∀ (w : Writer) (following : Bytes),
    let data := (h.write w).data ++ following
    read ⟨data, 8 * w.data.size⟩ = .ok (h, ⟨data, 8 * (h.write w).data.size⟩)

theorem Fits.readBack {h : SegmentHeader} (hfits : h.Fits) : h.ReadBack := by
  intro w following data
  have hread := readsBytes hfits ⟨w.data ++ (h.bytes ++ following), 8 * w.data.size⟩
    (toList following) (by simp) (fun _ => Nat.dvd_mul_right 8 _)
    (by rw [Reader.rest_append, toList_append])
  have hdata : data = w.data ++ (h.bytes ++ following) := by
    simp only [data, write_eq, Writer.writeBytes, Array.append_assoc]
  have hstop : 8 * (h.write w).data.size = 8 * w.data.size + (toList h.bytes).length := by
    rw [write_eq, Writer.writeBytes, Array.size_append, length_toList, Nat.mul_add]
  rw [hdata, hread, hstop]
  rfl

/-- A header whose numbers fit their fields is read back as it was written. The numbers of every
header that is read fit, so that writing it and reading again gives the same header. -/
theorem header_roundTrip (h : SegmentHeader) :
    (h.Fits → h.ReadBack) ∧ ∀ r r', read r = .ok (h, r') → h.Fits ∧ h.ReadBack := by
  refine ⟨Fits.readBack, fun r r' hread => ?_⟩
  have hfits := gives_read r h r' hread
  exact ⟨hfits, hfits.readBack⟩

/-- A header with references of two bytes, too many for the short form of their count, and with an
open length. -/
def wide : SegmentHeader where
  number := 65536
  kind := .region .generic .immediate
  deferredNonRetain := true
  retention := [true, false, false, true, true, false, false, true, true]
  referred := [0, 256, 257, 4, 5, 6, 7, 65535]
  page := 256
  dataLength := none

/-- The header is read from bytes in which a flag is set that belongs to none of the segments. -/
theorem header_roundTrip_wide :
    let data : Bytes := (wide.write .empty).data.set! 10 0xFF
    read (.ofBytes data) = .ok (wide, ⟨data, 8 * data.size⟩) ∧ wide.Fits ∧ wide.ReadBack := by
  intro data
  have hread : read (.ofBytes data) = .ok (wide, ⟨data, 8 * data.size⟩) := by decide +kernel
  exact ⟨hread, (header_roundTrip wide).2 _ _ hread⟩

end SegmentHeader
end Bilevel

import Bilevel.Proofs.Segment.Header
import Bilevel.Segment.Stream

/-!
# Reading back streams of segments

Segments that are written one after another, each with the length of its data in its header, are
found again in the stream, and in a file whose last segment ends it.

## Main results

* `Stream.embedded_bytesOf` — a stream of segments.
* `Stream.file_sequential`, `Stream.file_bytesOf` — a file in which each header is followed by its
  data.
-/

namespace Bilevel

open Bits

namespace Segment

/-- The bytes of a segment in a stream. -/
def bytes (s : Segment) : Bytes := s.header.bytes ++ s.data

/-- Whether the header of a segment can be written, with the length of its data. -/
structure WellFormed (s : Segment) : Prop where
  fits : s.header.Fits
  length : s.header.dataLength = some s.data.size

instance (s : Segment) : Decidable s.WellFormed :=
  decidable_of_iff (s.header.Fits ∧ s.header.dataLength = some s.data.size)
    ⟨fun h => ⟨h.1, h.2⟩, fun h => ⟨h.fits, h.length⟩⟩

/-- What is found of a segment in a stream. -/
def item (s : Segment) : StreamItem := Stream.itemOf s.header s.data

/-- Whether a segment is found again in a stream. -/
structure Findable (s : Segment) : Prop where
  fits : s.header.Fits
  length : s.header.dataLength = some s.data.size
  valid : s.header.validate = .ok ()

theorem Findable.wellFormed {s : Segment} (h : s.Findable) : s.WellFormed := ⟨h.fits, h.length⟩

theorem Findable.item_eq {s : Segment} (h : s.Findable) : s.item = .segment s := by
  unfold item Stream.itemOf
  rw [h.valid]

theorem map_item_of_findable {segments : List Segment} (h : ∀ s ∈ segments, s.Findable) :
    segments.map item = segments.map .segment :=
  List.map_congr_left fun s hs => (h s hs).item_eq

end Segment

namespace Stream

/-- The bytes of segments one after another. -/
def bytesOf (segments : List Segment) : Bytes :=
  segments.foldr (fun s rest => s.bytes ++ rest) #[]

@[simp] theorem bytesOf_nil : bytesOf [] = #[] := rfl

theorem bytesOf_cons (s : Segment) (segments : List Segment) :
    bytesOf (s :: segments) = s.bytes ++ bytesOf segments := rfl

theorem bytesOf_append (segments more : List Segment) :
    bytesOf (segments ++ more) = bytesOf segments ++ bytesOf more := by
  induction segments with
  | nil => simp
  | cons s segments ih => rw [List.cons_append, bytesOf_cons, bytesOf_cons, ih, Array.append_assoc]

theorem length_le_size (segments : List Segment) :
    minHeaderBytes * segments.length ≤ (bytesOf segments).size := by
  induction segments with
  | nil => exact Nat.le_refl 0
  | cons s segments ih =>
    have hs := s.header.minHeaderBytes_le
    rw [bytesOf_cons, Segment.bytes, Array.size_append, Array.size_append, List.length_cons]
    unfold minHeaderBytes at ih ⊢
    omega

/-- The data of a segment is as long as its header says. -/
theorem readsBytes_readData {s : Segment} (h : s.WellFormed) :
    ReadsBytes (readData s.header) s.data s.data := by
  unfold readData
  rw [h.length]
  exact readsBytes_readBytes s.data

/-- Reading the next segment of a stream. -/
theorem interleaved_segment {s : Segment} (h : s.WellFormed) (limit : Nat) (front rest : Bytes) :
    interleaved (limit + 1) (.between front (s.bytes ++ rest)) = s.item ::
      if s.header.kind = .endOfFile then []
      else interleaved limit (.between (front ++ s.bytes) rest) := by
  have hsize := s.header.minHeaderBytes_le
  have hheader := (SegmentHeader.readsBytes h.fits).run_between front (s.data ++ rest)
  have hdata := (readsBytes_readData h).run_between (front ++ s.header.bytes) rest
  rw [Array.append_assoc] at hdata
  have hleft : ¬(Reader.between front (s.header.bytes ++ (s.data ++ rest))).data.size ≤
      (Reader.between front (s.header.bytes ++ (s.data ++ rest))).position / 8 := by
    simp only [Reader.data_between, Reader.position_between, Array.size_append]
    omega
  rw [Segment.bytes, Array.append_assoc, interleaved, if_neg hleft]
  simp only [hheader, hdata]
  rfl

/-- The items of a stream that goes on with segments before the end of a file. -/
theorem interleaved_append {segments : List Segment} (h : ∀ s ∈ segments, s.WellFormed)
    (hend : ∀ s ∈ segments, s.header.kind ≠ .endOfFile) (limit : Nat) (front rest : Bytes) :
    interleaved (limit + segments.length) (.between front (bytesOf segments ++ rest)) =
      segments.map Segment.item ++
        interleaved limit (.between (front ++ bytesOf segments) rest) := by
  induction segments generalizing front with
  | nil => simp
  | cons s segments ih =>
    rw [bytesOf_cons, List.length_cons, ← Nat.add_assoc, Array.append_assoc,
      interleaved_segment (h s List.mem_cons_self), if_neg (hend s List.mem_cons_self),
      ih (fun s' hs' => h s' (List.mem_cons_of_mem s hs'))
        (fun s' hs' => hend s' (List.mem_cons_of_mem s hs')), Array.append_assoc]
    rfl

theorem interleaved_end {limit : Nat} {r : Reader} (h : r.data.size ≤ r.position / 8) :
    interleaved limit r = [] := by
  cases limit with
  | zero => rfl
  | succ limit => rw [interleaved, if_pos h]

/-- The limit is larger than the number of segments. -/
theorem itemLimit_eq (segments : List Segment) {size : Nat} (h : (bytesOf segments).size ≤ size) :
    ∃ limit, itemLimit size = limit + 1 + segments.length := by
  have hlength := length_le_size segments
  refine ⟨size / minHeaderBytes - segments.length, ?_⟩
  unfold itemLimit
  unfold minHeaderBytes at hlength ⊢
  omega

/-- The segments of a stream are found again. -/
theorem embedded_bytesOf {segments : List Segment} (h : ∀ s ∈ segments, s.Findable)
    (hend : ∀ s ∈ segments, s.header.kind ≠ .endOfFile) :
    embedded (bytesOf segments) = segments.map .segment := by
  obtain ⟨limit, hlimit⟩ := itemLimit_eq segments (Nat.le_refl _)
  have hitems := interleaved_append (fun s hs => (h s hs).wellFormed) hend (limit + 1) #[] #[]
  have hended : interleaved (limit + 1) (.between (#[] ++ bytesOf segments) #[]) = [] :=
    interleaved_end (by simp)
  rw [hended, List.append_nil, Array.append_empty, Reader.between_empty, ← hlimit] at hitems
  exact hitems.trans (Segment.map_item_of_findable h)

end Stream

/-! ## Files -/

namespace FileHeader

/-- The bytes of a file header. -/
def bytes (h : FileHeader) : Bytes :=
  fileId ++
    (toBigEndian 1 ((decide (h.organization = .sequential)).toNat + 2 * h.pageCount.isNone.toNat) ++
      match h.pageCount with
      | some count => toBigEndian 4 count
      | none => #[])

theorem write_eq (h : FileHeader) (w : Writer) : h.write w = w.writeBytes h.bytes := by
  unfold write bytes
  cases h.pageCount <;> simp [Writer.writeUnsigned, Writer.writeBytes, Array.append_assoc]

theorem flags_eq (organization : Organization) (unknown : Bool) :
    let flags := (decide (organization = .sequential)).toNat + 2 * unknown.toNat
    flags < 256 ^ 1 ∧ flags / 16 = 0 ∧ flags.testBit 1 = unknown ∧
      (if flags.testBit 0 then Organization.sequential else .randomAccess) = organization := by
  cases organization <;> cases unknown <;> decide

/-- A file header is read back as it was written. -/
theorem readsBytes {h : FileHeader} (hcount : ∀ count ∈ h.pageCount, count ≤ 0xFFFFFFFF) :
    ReadsBytes read h.bytes h := by
  obtain ⟨organization, pageCount⟩ := h
  obtain ⟨hlt, hreserved, hunknown, horganization⟩ := flags_eq organization pageCount.isNone
  unfold bytes
  refine (readsBytes_readBytes fileId).bind ?_
  simp only [ne_eq, not_true_eq_false, if_false]
  refine (readsBytes_readUnsigned hlt).bind ?_
  simp only [hreserved, hunknown, horganization, not_true_eq_false, if_false]
  cases pageCount with
  | none => exact readsBytes_pure _
  | some count =>
    have hfits : count < 256 ^ 4 := by
      have := hcount count rfl
      omega
    exact (readsBytes_readUnsigned hfits).bind_pure fun count =>
      FileHeader.mk organization (some count)

end FileHeader

/-- What a file header makes of the rest of a file. -/
theorem Stream.file_append {front : Bytes} {header : FileHeader}
    (hfront : ReadsBytes FileHeader.read front header) (rest : Bytes) :
    Stream.file (front ++ rest) = .ok (match header.organization with
      | .sequential => interleaved (itemLimit (front ++ rest).size) (.between front rest)
      | .randomAccess => headersFirst (.between front rest)) := by
  unfold Stream.file
  rw [hfront.run_append]
  simp only [Bind.bind, Except.bind, pure, Except.pure]
  cases header.organization <;> rfl

/-- The segments of a file are found again, up to the one that ends it, if each header is followed
by its data. -/
theorem Stream.file_sequential {segments : List Segment} {last : Segment} {front : Bytes}
    {pageCount : Option Nat} (hfront : ReadsBytes FileHeader.read front ⟨.sequential, pageCount⟩)
    (h : ∀ s ∈ segments, s.WellFormed) (hend : ∀ s ∈ segments, s.header.kind ≠ .endOfFile)
    (hlast : last.WellFormed) (hkind : last.header.kind = .endOfFile) :
    Stream.file (front ++ (bytesOf segments ++ last.bytes)) =
      .ok (segments.map Segment.item ++ [last.item]) := by
  obtain ⟨limit, hlimit⟩ := itemLimit_eq segments (show (bytesOf segments).size ≤
    (front ++ (bytesOf segments ++ last.bytes)).size by simp; omega)
  have hitem := interleaved_segment hlast limit (front ++ bytesOf segments) #[]
  rw [Array.append_empty, if_pos hkind] at hitem
  rw [Stream.file_append hfront]
  dsimp only
  rw [hlimit, interleaved_append h hend, hitem]

/-- Valid segments of a file are found again. -/
theorem Stream.file_bytesOf {segments : List Segment} {last : Segment} {pageCount : Nat}
    (h : ∀ s ∈ segments, s.Findable) (hend : ∀ s ∈ segments, s.header.kind ≠ .endOfFile)
    (hlast : last.Findable) (hkind : last.header.kind = .endOfFile)
    (hcount : pageCount ≤ 0xFFFFFFFF) :
    Stream.file ((FileHeader.mk .sequential (some pageCount)).bytes ++
        (bytesOf segments ++ last.bytes)) =
      .ok (segments.map .segment ++ [.segment last]) := by
  have hfront := FileHeader.readsBytes (h := ⟨.sequential, some pageCount⟩) (by simpa using hcount)
  rw [Stream.file_sequential hfront (fun s hs => (h s hs).wellFormed) hend hlast.wellFormed hkind,
    Segment.map_item_of_findable h, hlast.item_eq]

end Bilevel

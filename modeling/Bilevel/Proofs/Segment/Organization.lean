import Bilevel.Proofs.Segment.Stream

/-!
# The two organizations of files

The headers of a file can stand in front of their data or all together in front of all data. Either
way the same segments are found, as long as the header of each of them can be written and the last
one, and no other, ends the file.

## Main definitions

* `Stream.alternating`, `Stream.headersThenData` — the bytes of segments in both organizations.

## Main results

* `Stream.readsBytes_readHeaders`, `Stream.deferred_dataOf` — headers, and later their data.
* `Stream.file_organizations` — what is found in both organizations.
-/

namespace Bilevel

open Bits

namespace Stream

/-- A file in which each header is followed by its data. -/
def alternating (pageCount : Option Nat) (segments : List Segment) : Bytes :=
  let w := (FileHeader.mk .sequential pageCount).write .empty
  (segments.foldl (fun w s => (s.header.write w).writeBytes s.data) w).data

/-- A file in which all headers come before all data. -/
def headersThenData (pageCount : Option Nat) (segments : List Segment) : Bytes :=
  let w := (FileHeader.mk .randomAccess pageCount).write .empty
  let w := segments.foldl (fun w s => s.header.write w) w
  (segments.foldl (fun w s => w.writeBytes s.data) w).data

/-- The bytes of headers one after another. -/
def headersOf (segments : List Segment) : Bytes :=
  segments.foldr (fun s rest => s.header.bytes ++ rest) #[]

/-- The data of segments one after another. -/
def dataOf (segments : List Segment) : Bytes := segments.foldr (fun s rest => s.data ++ rest) #[]

theorem headersOf_cons (s : Segment) (segments : List Segment) :
    headersOf (s :: segments) = s.header.bytes ++ headersOf segments := rfl

theorem dataOf_cons (s : Segment) (segments : List Segment) :
    dataOf (s :: segments) = s.data ++ dataOf segments := rfl

theorem alternating_eq (pageCount : Option Nat) (segments : List Segment) :
    alternating pageCount segments =
      (FileHeader.mk .sequential pageCount).bytes ++ bytesOf segments := by
  have hwrite (w : Writer) (s : Segment) :
      (s.header.write w).writeBytes s.data = w.writeBytes s.bytes := by
    rw [SegmentHeader.write_eq, Segment.bytes]
    simp [Writer.writeBytes, Array.append_assoc]
  unfold alternating
  simp only [hwrite, Writer.foldl_writeBytes, FileHeader.write_eq]
  simp [Writer.writeBytes, Writer.empty, bytesOf]

theorem headersThenData_eq (pageCount : Option Nat) (segments : List Segment) :
    headersThenData pageCount segments = (FileHeader.mk .randomAccess pageCount).bytes ++
      (headersOf segments ++ dataOf segments) := by
  unfold headersThenData
  simp only [SegmentHeader.write_eq, Writer.foldl_writeBytes, FileHeader.write_eq]
  simp [Writer.writeBytes, Writer.empty, headersOf, dataOf, Array.append_assoc]

/-! ## Headers -/

/-- A read that is tried only if bytes are left. -/
theorem readsBytes_unless_atEnd {α : Type} {m : Reading α} {bytes : Bytes} {a : α}
    (h : ReadsBytes m bytes a) (hpos : 0 < bytes.size) (otherwise : Reading α) :
    ReadsBytes (Reader.atEnd >>= fun ended => if ended = true then otherwise else m) bytes a := by
  intro r tl hle hr hrest
  have hroom := Reader.position_add_le hle hrest
  rw [length_toList] at hroom
  have hleft : Reader.atEnd r = .ok (false, r) := by
    unfold Reader.atEnd
    rw [decide_eq_false (by omega)]
  rw [run_bind_ok hleft]
  exact h r tl hle hr hrest

/-- Headers are read up to the one that ends the file. -/
theorem readsBytes_readHeaders {segments : List Segment} {last : Segment}
    (h : ∀ s ∈ segments ++ [last], s.WellFormed)
    (hend : ∀ s ∈ segments, s.header.kind ≠ .endOfFile) (hkind : last.header.kind = .endOfFile)
    {limit : Nat} (hlimit : segments.length < limit) :
    ReadsBytes (readHeaders limit) (headersOf (segments ++ [last]))
      ((segments ++ [last]).map (·.header)) := by
  induction segments generalizing limit with
  | nil =>
    obtain ⟨limit, rfl⟩ : ∃ n, limit = n + 1 := ⟨limit - 1, by omega⟩
    have hlast := h last List.mem_cons_self
    have hsize := last.header.minHeaderBytes_le
    refine readsBytes_unless_atEnd ?_ (by simp [headersOf]; omega) _
    refine (SegmentHeader.readsBytes hlast.fits).bind ?_
    simp only [hlast.length, hkind, Option.isNone_some, Bool.false_eq_true, if_false, if_true]
    exact readsBytes_pure _
  | cons s segments ih =>
    obtain ⟨limit, rfl⟩ : ∃ n, limit = n + 1 := ⟨limit - 1, by omega⟩
    have hs := h s List.mem_cons_self
    have hsize := s.header.minHeaderBytes_le
    have hrest := ih (fun s' hs' => h s' (List.mem_cons_of_mem s hs'))
      (fun s' hs' => hend s' (List.mem_cons_of_mem s hs')) (Nat.lt_of_succ_lt_succ hlimit)
    rw [List.cons_append, headersOf_cons]
    refine readsBytes_unless_atEnd ?_ (by simp; omega) _
    refine (SegmentHeader.readsBytes hs.fits).bind ?_
    simp only [hs.length, hend s List.mem_cons_self, Option.isNone_some, Bool.false_eq_true,
      if_false]
    exact hrest.bind_pure (s.header :: ·)

/-! ## Data -/

/-- The data of all headers is found, up to the end of the file. -/
theorem deferred_dataOf {segments : List Segment} (h : ∀ s ∈ segments, s.WellFormed)
    (hend : ∀ s ∈ segments.dropLast, s.header.kind ≠ .endOfFile) (front : Bytes) :
    deferred (segments.map (·.header)) (.between front (dataOf segments)) =
      segments.map Segment.item := by
  induction segments generalizing front with
  | nil => rfl
  | cons s segments ih =>
    have hdata := (readsBytes_readData (h s List.mem_cons_self)).run_between front (dataOf segments)
    rw [dataOf_cons, List.map_cons, deferred, hdata]
    dsimp only
    cases segments with
    | nil => split <;> rfl
    | cons second segments =>
      rw [if_neg (hend s List.mem_cons_self),
        ih (fun s' hs' => h s' (List.mem_cons_of_mem s hs'))
          fun s' hs' => hend s' (List.mem_cons_of_mem s hs')]
      rfl

theorem length_le_size_headersOf (segments : List Segment) :
    minHeaderBytes * segments.length ≤ (headersOf segments).size := by
  induction segments with
  | nil => exact Nat.le_refl 0
  | cons s segments ih =>
    have hs := s.header.minHeaderBytes_le
    rw [headersOf_cons, Array.size_append, List.length_cons]
    unfold minHeaderBytes at ih ⊢
    omega

end Stream

/-! ## Files -/

/-- The segments of a file are found again, up to the one that ends it, if all headers come before
all data. -/
theorem Stream.file_randomAccess {segments : List Segment} {last : Segment} {front : Bytes}
    {pageCount : Option Nat} (hfront : ReadsBytes FileHeader.read front ⟨.randomAccess, pageCount⟩)
    (h : ∀ s ∈ segments ++ [last], s.WellFormed)
    (hend : ∀ s ∈ segments, s.header.kind ≠ .endOfFile) (hkind : last.header.kind = .endOfFile) :
    Stream.file (front ++ (headersOf (segments ++ [last]) ++ dataOf (segments ++ [last]))) =
      .ok ((segments ++ [last]).map Segment.item) := by
  have hcount := length_le_size_headersOf (segments ++ [last])
  rw [List.length_append, List.length_singleton] at hcount
  have hlimit : segments.length < itemLimit
      (front ++ (headersOf (segments ++ [last]) ++ dataOf (segments ++ [last]))).size := by
    simp only [Array.size_append]
    unfold itemLimit
    unfold minHeaderBytes at hcount ⊢
    omega
  have hheaders := (readsBytes_readHeaders h hend hkind hlimit).run_between front
    (dataOf (segments ++ [last]))
  rw [file_append hfront]
  dsimp only
  unfold headersFirst
  rw [Reader.data_between, hheaders]
  exact congrArg Except.ok (deferred_dataOf h (by simpa using hend) _)

/-- Whether each header is followed by its data or all headers come before all data, the same is
found in a file: every segment, or what is wrong with its header, once and in order. -/
theorem Stream.file_organizations {segments : List Segment} {last : Segment}
    (h : ∀ s ∈ segments ++ [last], s.WellFormed)
    (hend : ∀ s ∈ segments, s.header.kind ≠ .endOfFile) (hkind : last.header.kind = .endOfFile)
    {pageCount pageCount' : Option Nat} (hcount : ∀ count ∈ pageCount, count ≤ 0xFFFFFFFF)
    (hcount' : ∀ count ∈ pageCount', count ≤ 0xFFFFFFFF) :
    Stream.file (alternating pageCount (segments ++ [last])) =
        .ok ((segments ++ [last]).map Segment.item) ∧
      Stream.file (headersThenData pageCount' (segments ++ [last])) =
        .ok ((segments ++ [last]).map Segment.item) := by
  have hsegments : ∀ s ∈ segments, s.WellFormed := fun s hs => h s (List.mem_append_left _ hs)
  have hlast : last.WellFormed := h last (by simp)
  have hbytes : bytesOf (segments ++ [last]) = bytesOf segments ++ last.bytes := by
    rw [bytesOf_append, bytesOf_cons, bytesOf_nil, Array.append_empty]
  have hsequential := file_sequential (FileHeader.readsBytes hcount) hsegments hend hlast hkind
  have hrandom := file_randomAccess (FileHeader.readsBytes hcount') h hend hkind
  rw [alternating_eq, headersThenData_eq, hbytes, hsequential, hrandom, List.map_append]
  exact ⟨rfl, rfl⟩

/-- A table that refers to a later segment, a region of no page, and the end of the file. -/
theorem Stream.file_organizations_forward :
    let forward : Segment := ⟨⟨3, .tables, false, [true, true], [9], 0, some 2⟩, #[1, 2]⟩
    let pageless : Segment :=
      ⟨⟨4, .region .generic .immediate, false, [false], [], 0, some 1⟩, #[7]⟩
    let last : Segment := ⟨⟨5, .endOfFile, false, [false], [], 0, some 0⟩, #[]⟩
    let items : List StreamItem :=
      [.invalid forward.header (.reference (.forward 3 9)),
        .invalid pageless.header (.malformed .invalidPageAssociation), .segment last]
    ((∀ s ∈ [forward, pageless] ++ [last], s.WellFormed) ∧
      (∀ s ∈ [forward, pageless], s.header.kind ≠ .endOfFile) ∧ last.header.kind = .endOfFile) ∧
    Stream.file (alternating (some 0) ([forward, pageless] ++ [last])) = .ok items ∧
      Stream.file (headersThenData none ([forward, pageless] ++ [last])) = .ok items := by
  intro forward pageless last items
  have hwellFormed : ∀ s ∈ [forward, pageless] ++ [last], s.WellFormed := by decide
  have hend : ∀ s ∈ [forward, pageless], s.header.kind ≠ .endOfFile := by decide
  exact ⟨⟨hwellFormed, hend, rfl⟩,
    file_organizations hwellFormed hend rfl (by decide) (by decide)⟩

end Bilevel

import Bilevel.Proofs.Mq.Marker
import Bilevel.Proofs.Region.Data
import Bilevel.Proofs.Segment.OpenLength

/-!
# Generic regions of open length

The data of a generic region of open length ends with a marker and the count of rows that were
coded. No marker appears among coded pixels before their end. But the places of adaptive pixels are
arbitrary bytes, and the last of them together with the first coded byte may form a marker, too: the
end of the data is found exactly if none of them does.

## Main definitions

* `Generic.encodeOpenRegion` — the data of a region that can have an open length.
* `Generic.Unmarked` — no marker appears up to the first coded byte.

## Main results

* `Mq.Encoder.finish_eq_append` — a finished stream has one marker, at its end.
* `Generic.decodeRegion_encodeOpenRegion` — the data is decoded.
* `Generic.unmarked_nominal` — the usual adaptive pixels of template 0 form no marker.
* `Generic.interleaved_encodeOpenRegion` — when the data is found in a stream.
-/

namespace Bilevel

open Bits Mq

/-! ## The marker of a finished stream -/

/-- A finished stream ends with a marker and has no other. -/
theorem Mq.Encoder.finish_eq_append {e : Encoder} (hreach : Encoder.start.Reaches e) :
    ∃ front, e.finish.toList = front ++ [0xAC] ∧ front.getLast? = some 0xFF ∧
      Stream.PairFree (0xFF, 0xAC) front := by
  obtain ⟨front, hfinish, hchain⟩ := Encoder.exists_front_finish hreach
  refine ⟨front ++ [0xFF], by simp [hfinish], by simp, hchain.imp fun a b hcoded => ?_⟩
  rintro ⟨rfl, rfl⟩
  exact absurd (hcoded rfl) (by decide)

namespace Generic

variable {settings : DecodeSettings} {info : RegionInfo} {params : GenericParams} {bitmap : Bitmap}
  {declared : Nat}

/-- The bytes of the coded pixels. -/
def codedBytes (params : GenericParams) (bitmap : Bitmap) : Bytes :=
  (encodeBitmap params .start params.freshContexts bitmap).2.finish

/-- No marker appears in the bytes behind the flags, up to the first coded one. -/
def Unmarked (params : GenericParams) (bitmap : Bitmap) : Prop :=
  Stream.PairFree (0xFF, 0xAC)
    ((AtPixel.bytesOf params.atPixels).toList ++ (codedBytes params bitmap).toList.take 1)

instance (params : GenericParams) (bitmap : Bitmap) : Decidable (Unmarked params bitmap) :=
  inferInstanceAs (Decidable (Stream.PairFree _ _))

/-- The data of a region that can have an open length: in place of the height, a bound on it, and
behind the coded pixels their count of rows. -/
def encodeOpenRegion (info : RegionInfo) (params : GenericParams) (bitmap : Bitmap)
    (declared : Nat) : Bytes :=
  let data := encodeRegion info params bitmap
  data.extract 0 4 ++ toBigEndian 4 declared ++ data.extract 8 data.size ++
    toBigEndian 4 bitmap.height

theorem encodeOpenRegion_eq (info : RegionInfo) (params : GenericParams) (bitmap : Bitmap)
    (declared : Nat) : encodeOpenRegion info params bitmap declared =
      headerBytes { info with height := declared } params ++
        (codedBytes params bitmap ++ toBigEndian 4 bitmap.height) := by
  have hsplit {a b c : Bytes} (ha : a.size = 4) (hb : b.size = 4) :
      (a ++ (b ++ c)).extract 0 4 = a ∧ (a ++ (b ++ c)).extract 8 (a ++ (b ++ c)).size = c := by
    constructor
    · simp [ha]
    · simp [ha, hb, Array.extract_append, Array.extract_eq_empty_of_le]
  unfold encodeOpenRegion
  rw [encodeRegion_eq]
  simp only [headerBytes, RegionInfo.bytes, Array.append_assoc]
  obtain ⟨hwidth, hrest⟩ := hsplit (size_toBigEndian 4 info.width) (size_toBigEndian 4 info.height)
  rw [hwidth, hrest]
  simp only [codedBytes, Array.append_assoc]

theorem splitRowCount_append (coded : Bytes) {rows : Nat} (hrows : rows ≤ info.height)
    (hfits : rows < 256 ^ 4) : splitRowCount info (coded ++ toBigEndian 4 rows) =
      .ok ({ info with height := rows }, coded) := by
  have hsize : (coded ++ toBigEndian 4 rows).size = coded.size + 4 := by
    rw [Array.size_append, size_toBigEndian]
  have hcount : (coded ++ toBigEndian 4 rows).extract coded.size (coded.size + 4) =
      toBigEndian 4 rows := by simp [Array.extract_append, size_toBigEndian]
  have hfront : (coded ++ toBigEndian 4 rows).extract 0 coded.size = coded := by simp
  unfold splitRowCount
  rw [hsize, if_neg (by omega), Nat.add_sub_cancel, hcount, hfront]
  simp only [bigEndian_toBigEndian hfits, Nat.not_lt.mpr hrows, if_false]

/-- The bitmap survives encoding and decoding, with the count of rows as its height. -/
theorem decodeRegion_encodeOpenRegion (hinfo : info.Fits) (h : Writable params)
    (hwidth : info.width = bitmap.width) (hheight : info.height = bitmap.height)
    (hrows : bitmap.height ≤ declared) (hdeclared : declared ≤ 0xFFFFFFFF)
    (hsize : bitmap.width * bitmap.height ≤ settings.maxPixelCount) :
    decodeRegion settings (encodeOpenRegion info params bitmap declared) true =
      .ok ⟨info, bitmap⟩ := by
  have hreach := reaches_encodeBitmap params .start params.freshContexts bitmap
  obtain ⟨d, hd, _⟩ := decodeBitmap_encodeBitmap (follows_finish hreach) h.causal
    (completes_flushed_of_reaches hreach)
  obtain ⟨width, height, x, y, operator⟩ := info
  obtain rfl : width = bitmap.width := hwidth
  obtain rfl : height = bitmap.height := hheight
  have hopen : (RegionInfo.mk bitmap.width declared x y operator).Fits :=
    ⟨hinfo.width, hdeclared, hinfo.x, hinfo.y⟩
  have hfits : bitmap.height < 256 ^ 4 := by omega
  unfold decodeRegion
  rw [encodeOpenRegion_eq, (readsBytes_readHeader hopen h settings).run_append]
  simp only [Bind.bind, Except.bind, pure, Except.pure, Reader.tail_append, if_true]
  rw [splitRowCount_append _ hrows hfits]
  simp only [Bitmap.create_eq hsize, codedBytes, hd]

/-- The usual adaptive pixels of template 0 form no marker, whatever follows them. -/
theorem unmarked_nominal (skipsRows : Bool) (bitmap : Bitmap) :
    Unmarked { template := .template0, skipsRows } bitmap := by
  have hat : (AtPixel.bytesOf Template.template0.nominalAt).toList =
      [0x03, 0xFF, 0xFD, 0xFF, 0x02, 0xFE, 0xFE, 0xFE] := by decide
  unfold Unmarked
  rw [hat]
  refine List.isChain_append.mpr ⟨by decide, ?_, by simp⟩
  cases (codedBytes _ bitmap).toList with
  | nil => exact .nil
  | cons b coded => exact .singleton b

/-! ## The end of a region -/

theorem endMarker_flagsOf (params : GenericParams) :
    Stream.endMarker (UInt8.ofNat (flagsOf params)) = (0xFF, 0xAC) := by
  have hflags : ∀ (template : Template) (skipsRows : Bool),
      Stream.endMarker (UInt8.ofNat (2 * template.code + 8 * skipsRows.toNat)) = (0xFF, 0xAC) := by
    intro template skipsRows
    cases template <;> cases skipsRows <;> decide
  exact hflags params.template params.skipsRows

/-- The end of a region is found exactly if no marker appears up to the first coded byte. -/
theorem regionLength_encodeOpenRegion (info : RegionInfo) (params : GenericParams)
    (bitmap : Bitmap) (declared : Nat) (following : Bytes) :
    Stream.regionLength (encodeOpenRegion info params bitmap declared ++ following) =
        .ok (encodeOpenRegion info params bitmap declared).size ↔ Unmarked params bitmap := by
  obtain ⟨front, hcoded, hlast, hfree⟩ :=
    Encoder.finish_eq_append (reaches_encodeBitmap params .start params.freshContexts bitmap)
  change (codedBytes params bitmap).toList = _ at hcoded
  obtain ⟨b, front, rfl⟩ := List.exists_cons_of_ne_nil (l := front) (by rintro rfl; cases hlast)
  let start := { info with height := declared }.bytes
  let pixels := (AtPixel.bytesOf params.atPixels).toList
  let rows := toBigEndian 4 bitmap.height
  have hstart : start.toList.length = RegionInfo.byteCount := by
    simp [start, RegionInfo.bytes, size_toBigEndian, RegionInfo.byteCount]
  have hdata : (encodeOpenRegion info params bitmap declared ++ following).toList =
      start.toList ++ UInt8.ofNat (flagsOf params) ::
        ((pixels ++ b :: front) ++ 0xAC :: (rows.toList ++ following.toList)) := by
    have hflags : (toBigEndian 1 (flagsOf params)).toList = [UInt8.ofNat (flagsOf params)] := rfl
    rw [encodeOpenRegion_eq, headerBytes]
    simp only [Array.toList_append, hcoded, hflags, List.append_assoc, List.cons_append,
      List.nil_append, start, pixels, rows]
  have hsize : (encodeOpenRegion info params bitmap declared).size =
      start.toList.length + 1 + (pixels ++ b :: front).length + 5 := by
    have hlength := congrArg List.length hdata
    simp only [Array.length_toList, Array.size_append, List.length_append, List.length_cons,
      rows, size_toBigEndian] at hlength ⊢
    omega
  have hlast' : (pixels ++ b :: front).getLast? = some 0xFF := by
    rw [List.getLast?_append, hlast]
    rfl
  have hsplit : Stream.PairFree (0xFF, 0xAC) (pixels ++ b :: front) ↔ Unmarked params bitmap := by
    rw [Unmarked, hcoded]
    exact List.isChain_split.trans (and_iff_left hfree)
  have htl : 4 ≤ (rows.toList ++ following.toList).length := by
    simp [rows, size_toBigEndian]
  rw [hsize, ← hsplit]
  exact Stream.regionLength_eq_iff (endMarker_flagsOf params) hdata hstart htl hlast'

/-- A region of open length is decoded. In a stream its data is found, and reading goes on right
behind it, exactly if no marker appears up to the first coded byte. -/
theorem interleaved_encodeOpenRegion {header : SegmentHeader} (hheader : header.Open)
    (hinfo : info.Fits) (h : Writable params) (hwidth : info.width = bitmap.width)
    (hheight : info.height = bitmap.height) (hrows : bitmap.height ≤ declared)
    (hdeclared : declared ≤ 0xFFFFFFFF)
    (hsize : bitmap.width * bitmap.height ≤ settings.maxPixelCount) (front following : Bytes)
    (limit : Nat) :
    let data := encodeOpenRegion info params bitmap declared
    let stream := front ++ (header.bytes ++ (data ++ following))
    (Stream.interleaved (limit + 1) ⟨stream, 8 * front.size⟩ =
        .segment ⟨header, data⟩ ::
          Stream.interleaved limit ⟨stream, 8 * (front.size + header.bytes.size + data.size)⟩ ↔
      Unmarked params bitmap) ∧
    decodeRegion settings data true = .ok ⟨info, bitmap⟩ :=
  ⟨(Stream.interleaved_open_iff hheader ..).trans (regionLength_encodeOpenRegion ..),
    decodeRegion_encodeOpenRegion hinfo h hwidth hheight hrows hdeclared hsize⟩

/-- A header of open length. -/
def openHeader : SegmentHeader where
  number := 1
  kind := .region .generic .immediateLossless
  deferredNonRetain := false
  retention := [false]
  referred := []
  page := 1
  dataLength := none

theorem open_openHeader : openHeader.Open where
  fits := ⟨by decide, rfl, by decide, by decide, by decide, by simp [openHeader]⟩
  kind := rfl
  length := rfl
  valid := rfl

/-- A row of seven pixels, five of them black. -/
def row : Bitmap :=
  [0, 2, 3, 4, 5].foldl (fun b x => b.set x 0 true) (.blank 7 1)

/-- The place of the row on a page. -/
def rowInfo : RegionInfo := ⟨7, 1, 0, 0, .or⟩

theorem interleaved_encodeOpenRegion_row :
    let data := encodeOpenRegion rowInfo {} row 3
    let front : Bytes := #[0x00]
    let stream := front ++ (openHeader.bytes ++ (data ++ #[0xFF, 0xAC]))
    Stream.interleaved 2 ⟨stream, 8 * front.size⟩ = .segment ⟨openHeader, data⟩ ::
        Stream.interleaved 1 ⟨stream, 8 * (front.size + openHeader.bytes.size + data.size)⟩ ∧
      decodeRegion {} data true = .ok ⟨rowInfo, row⟩ := by
  have hfits : rowInfo.Fits := ⟨by decide, by decide, by decide, by decide⟩
  have hsize : row.width * row.height ≤ ({} : DecodeSettings).maxPixelCount := by decide
  have h := interleaved_encodeOpenRegion open_openHeader hfits (writable_nominal .template0 true)
    rfl rfl (by decide : row.height ≤ 3) (by decide) hsize #[0x00] #[0xFF, 0xAC] 1
  exact ⟨h.1.mpr (unmarked_nominal true row), h.2⟩

/-- The usual adaptive pixel of template 1 ends with a byte of ones, so the first coded byte can
complete a marker. Then the data is cut short, and what is left of it isn't a segment. -/
theorem interleaved_encodeOpenRegion_cut :
    let params : GenericParams := { template := .template1, skipsRows := false }
    let data := encodeOpenRegion rowInfo params row 1
    let stream := openHeader.bytes ++ data
    Writable params ∧ openHeader.Open ∧ data.size = 28 ∧
      Stream.interleaved 2 ⟨stream, 0⟩ =
        [.segment ⟨openHeader, data.extract 0 25⟩, .broken none .unexpectedEnd] ∧
      Stream.interleaved 2 ⟨stream, 0⟩ ≠ .segment ⟨openHeader, data⟩ ::
        Stream.interleaved 1 ⟨stream, 8 * stream.size⟩ := by
  refine ⟨writable_nominal .template1 false, open_openHeader, ?_⟩
  decide +kernel

end Generic
end Bilevel

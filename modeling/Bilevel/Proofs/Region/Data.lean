import Bilevel.Proofs.Region.Generic
import Bilevel.Proofs.Region.Refinement
import Bilevel.Proofs.Segment.Fields

/-!
# The data of generic and refinement regions

The data of a region is its header and a finished stream of decisions. Decoding it gives the bitmap
that was encoded, and the place of the region.

## Main results

* `Generic.decodeRegion_encodeRegion` — generic regions survive encoding and decoding.
* `Refinement.decodeRegion_encodeRegion` — refinement regions do, given the same reference.
-/

namespace Bilevel

open Bits Mq

/-- A decoder of a finished stream and an encoder that starts are in step. -/
theorem Mq.follows_finish {f : Encoder} (hreach : Encoder.start.Reaches f) :
    Follows f.flushed.code [] Encoder.start (Decoder.ofBytes f.finish) :=
  follows_ofBytes hreach (List.append_nil _).symm

/-! ## Generic regions -/

namespace Generic

/-- The byte that says how a bitmap is coded. -/
def flagsOf (params : GenericParams) : Nat :=
  2 * params.template.code + 8 * params.skipsRows.toNat

/-- Whether the adaptive pixels can be written. -/
structure Writable (params : GenericParams) : Prop where
  length : params.atPixels.length = params.template.atCount
  causal : ∀ p ∈ params.atPixels, p.causal = true
  fits : ∀ p ∈ params.atPixels, p.Fits

theorem writable_nominal (template : Template) (skipsRows : Bool) :
    Writable { template, skipsRows } := by
  have hpixels : ∀ p ∈ template.nominalAt, p.causal = true ∧ p.Fits := by
    cases template <;> decide
  refine ⟨?_, fun p hp => (hpixels p hp).1, fun p hp => (hpixels p hp).2⟩
  cases template <;> rfl

/-- The bytes in front of the coded pixels. -/
def headerBytes (info : RegionInfo) (params : GenericParams) : Bytes :=
  info.bytes ++ (toBigEndian 1 (flagsOf params) ++ AtPixel.bytesOf params.atPixels)

theorem encodeRegion_eq (info : RegionInfo) (params : GenericParams) (bitmap : Bitmap) :
    encodeRegion info params bitmap = headerBytes info params ++
      (encodeBitmap params .start params.freshContexts bitmap).2.finish := by
  unfold encodeRegion headerBytes
  simp only [RegionInfo.write_eq, AtPixel.writeAll_eq]
  simp [Writer.writeUnsigned, Writer.writeBytes, Writer.empty, flagsOf, Array.append_assoc]

theorem readsBytes_readHeader {info : RegionInfo} {params : GenericParams} (hinfo : info.Fits)
    (h : Writable params) (settings : DecodeSettings) :
    ReadsBytes (readHeader settings) (headerBytes info params) (info, params) := by
  obtain ⟨template, skipsRows, atPixels⟩ := params
  have hflags : ∀ (template : Template) (skipsRows : Bool),
      let flags := 2 * template.code + 8 * skipsRows.toNat
      flags < 256 ∧ flags.testBit 0 = false ∧ Template.ofCode (flags / 2 % 4) = template ∧
        flags.testBit 4 = false ∧ flags / 32 = 0 ∧ flags.testBit 3 = skipsRows := by
    intro template skipsRows
    cases template <;> cases skipsRows <;> decide
  obtain ⟨hlt, hmmr, htemplate, hextended, hreserved, hskips⟩ := hflags template skipsRows
  refine (RegionInfo.readsBytes hinfo settings).bind ?_
  refine (readsBytes_readUnsigned hlt).bind ?_
  simp only [flagsOf, hmmr, htemplate, hextended, hreserved, hskips, Bool.false_eq_true, if_false]
  refine (readsBytes_checkReserved_zero settings).bind_nil ?_
  have hat := AtPixel.readsBytes_readCausal h.fits h.causal
  rw [h.length] at hat
  exact hat.bind_pure fun atPixels => (info, GenericParams.mk template skipsRows atPixels)

/-- The bitmap and the place of a region survive encoding and decoding. -/
theorem decodeRegion_encodeRegion {settings : DecodeSettings} {info : RegionInfo}
    {params : GenericParams} {bitmap : Bitmap} (hinfo : info.Fits) (h : Writable params)
    (hwidth : info.width = bitmap.width) (hheight : info.height = bitmap.height)
    (hsize : bitmap.width * bitmap.height ≤ settings.maxPixelCount) :
    decodeRegion settings (encodeRegion info params bitmap) false = .ok ⟨info, bitmap⟩ := by
  have hreach := reaches_encodeBitmap params .start params.freshContexts bitmap
  obtain ⟨d, hd, _⟩ := decodeBitmap_encodeBitmap (follows_finish hreach) h.causal
    (completes_flushed_of_reaches hreach)
  unfold decodeRegion
  rw [encodeRegion_eq, (readsBytes_readHeader hinfo h settings).run_append]
  simp only [Bind.bind, Except.bind, Bool.false_eq_true, if_false, pure, Except.pure,
    Reader.tail_append, hwidth, hheight, Bitmap.create_eq hsize, hd]

end Generic

/-! ## Refinement regions -/

namespace Refinement

/-- The byte that says how a bitmap is coded. -/
def flagsOf (params : RefinementParams) : Nat :=
  params.template.code + 2 * params.skipsPixels.toNat

/-- Whether the adaptive pixels can be written, and the reference has the place of the region. -/
structure Writable (params : RefinementParams) : Prop where
  causal : params.atPixels.current.causal = true
  fits : params.atPixels.current.Fits ∧ params.atPixels.reference.Fits
  nominal : params.template ≠ .template0 → params.atPixels = {}
  dx : params.dx = 0
  dy : params.dy = 0

theorem writable_nominal (template : RefinementTemplate) (skipsPixels : Bool) :
    Writable { template, skipsPixels } where
  causal := rfl
  fits := (by decide : (RefinementAt.current {}).Fits ∧ (RefinementAt.reference {}).Fits)
  nominal _ := rfl
  dx := rfl
  dy := rfl

/-- The bytes in front of the coded pixels. -/
def headerBytes (info : RegionInfo) (params : RefinementParams) : Bytes :=
  info.bytes ++ (toBigEndian 1 (flagsOf params) ++
    if params.template = .template0 then
      AtPixel.bytesOf [params.atPixels.current, params.atPixels.reference]
    else #[])

theorem encodeRegion_eq (info : RegionInfo) (params : RefinementParams)
    (reference bitmap : Bitmap) :
    encodeRegion info params reference bitmap = headerBytes info params ++
      (encodeBitmap params reference .start params.freshContexts bitmap).2.finish := by
  unfold encodeRegion headerBytes RefinementAt.write
  simp only [RegionInfo.write_eq, AtPixel.writeAll_eq]
  split <;>
    simp [Writer.writeUnsigned, Writer.writeBytes, Writer.empty, flagsOf, Array.append_assoc]

/-- The data of a region starts with its size and its place. -/
theorem encodeRegion_starts (info : RegionInfo) (params : RefinementParams)
    (reference bitmap : Bitmap) :
    ∃ rest, encodeRegion info params reference bitmap = info.bytes ++ rest := by
  rw [encodeRegion_eq, headerBytes, Array.append_assoc]
  exact ⟨_, rfl⟩

theorem readsBytes_readAt {pixels : RefinementAt} (hcausal : pixels.current.causal = true)
    (hfits : pixels.current.Fits ∧ pixels.reference.Fits) :
    ReadsBytes RefinementAt.read (AtPixel.bytesOf [pixels.current, pixels.reference]) pixels := by
  refine (AtPixel.readsBytes hfits.1).bind ?_
  simp only [List.foldr_cons, List.foldr_nil, Array.append_empty]
  exact (AtPixel.readsBytes hfits.2).bind_last (by simpa [hcausal] using readsBytes_pure _)

theorem readsBytes_readHeader {info : RegionInfo} {params : RefinementParams} (hinfo : info.Fits)
    (h : Writable params) (settings : DecodeSettings) :
    ReadsBytes (readHeader settings) (headerBytes info params) (info, params) := by
  obtain ⟨template, skipsPixels, atPixels, dx, dy⟩ := params
  obtain rfl : dx = 0 := h.dx
  obtain rfl : dy = 0 := h.dy
  have hflags : ∀ (template : RefinementTemplate) (skipsPixels : Bool),
      let flags := template.code + 2 * skipsPixels.toNat
      flags < 256 ∧ flags / 4 = 0 ∧ RefinementTemplate.ofFlag (flags.testBit 0) = template ∧
        flags.testBit 1 = skipsPixels := by
    intro template skipsPixels
    cases template <;> cases skipsPixels <;> decide
  obtain ⟨hlt, hreserved, htemplate, hskips⟩ := hflags template skipsPixels
  refine (RegionInfo.readsBytes hinfo settings).bind ?_
  refine (readsBytes_readUnsigned hlt).bind ?_
  simp only [flagsOf, hreserved, htemplate, hskips]
  refine (readsBytes_checkReserved_zero settings).bind_nil ?_
  cases template with
  | template0 =>
    exact (readsBytes_readAt h.causal h.fits).bind_pure fun atPixels =>
      (info, RefinementParams.mk .template0 skipsPixels atPixels 0 0)
  | template1 =>
    obtain rfl : atPixels = {} := h.nominal RefinementTemplate.noConfusion
    exact readsBytes_pure _

/-- The bitmap and the place of a region survive encoding and decoding with the same reference. -/
theorem decodeRegion_encodeRegion {settings : DecodeSettings} {info : RegionInfo}
    {params : RefinementParams} {reference bitmap : Bitmap} (hinfo : info.Fits)
    (h : Writable params) (hwidth : info.width = bitmap.width)
    (hheight : info.height = bitmap.height) (hreference : reference.width = bitmap.width ∧
      reference.height = bitmap.height)
    (hsize : bitmap.width * bitmap.height ≤ settings.maxPixelCount) :
    decodeRegion settings (encodeRegion info params reference bitmap) reference =
      .ok ⟨info, bitmap⟩ := by
  have hreach := reaches_encodeBitmap params reference .start params.freshContexts bitmap
  obtain ⟨d, hd, _⟩ := decodeBitmap_encodeBitmap (follows_finish hreach) h.causal
    (completes_flushed_of_reaches hreach)
  unfold decodeRegion
  rw [encodeRegion_eq, (readsBytes_readHeader hinfo h settings).run_append]
  simp only [Bind.bind, Except.bind, pure, Except.pure, Reader.tail_append, hwidth, hheight,
    hreference.1, hreference.2, ne_eq, not_true_eq_false, or_self, if_false,
    Bitmap.create_eq hsize, hd]

end Refinement
end Bilevel

import Bilevel.Proofs.Bits.Reads
import Bilevel.Region.AtPixel
import Bilevel.Segment.Region

/-!
# Fields of regions

The place of a region and the adaptive pixels are read back as they were written, as long as they
fit their fields.

## Main results

* `RegionInfo.readsBytes` — the place of a region.
* `AtPixel.readsBytes_readCausal` — adaptive pixels.
-/

namespace Bilevel

open Bits

theorem DecodeSettings.checkReserved_zero (settings : DecodeSettings) :
    settings.checkReserved 0 = .ok () := by
  simp [checkReserved]

theorem readsBytes_checkReserved_zero (settings : DecodeSettings) :
    ReadsBytes (liftM (settings.checkReserved 0)) #[] () :=
  reads_lift settings.checkReserved_zero

/-! ## Places of regions -/

namespace RegionInfo

/-- The bytes of the fields. -/
def bytes (info : RegionInfo) : Bytes :=
  toBigEndian 4 info.width ++ (toBigEndian 4 info.height ++ (toBigEndian 4 info.x ++
    (toBigEndian 4 info.y ++ toBigEndian 1 info.operator.code)))

theorem write_eq (info : RegionInfo) (w : Writer) : info.write w = w.writeBytes info.bytes := by
  simp [write, bytes, Writer.writeUnsigned, Writer.writeBytes, Array.append_assoc]

/-- Whether the numbers fit their fields. -/
structure Fits (info : RegionInfo) : Prop where
  width : info.width ≤ 0xFFFFFFFF
  height : info.height ≤ 0xFFFFFFFF
  x : info.x ≤ 0xFFFFFFFF
  y : info.y ≤ 0xFFFFFFFF

theorem readsBytes {info : RegionInfo} (h : info.Fits) (settings : DecodeSettings) :
    ReadsBytes (read settings) info.bytes info := by
  have hcode : info.operator.code < 5 := by cases info.operator <;> decide
  have hop : CombinationOperator.ofCode? (info.operator.code % 8) = some info.operator := by
    rw [Nat.mod_eq_of_lt (by omega), CombinationOperator.ofCode?_code]
  have hbit : info.operator.code.testBit 3 = false := Nat.testBit_lt_two_pow (by omega)
  have hreserved : info.operator.code / 16 = 0 := Nat.div_eq_of_lt (by omega)
  refine (readsBytes_readUnsigned (by have := h.width; omega)).bind ?_
  refine (readsBytes_readUnsigned (by have := h.height; omega)).bind ?_
  refine (readsBytes_readUnsigned (by have := h.x; omega)).bind ?_
  refine (readsBytes_readUnsigned (by have := h.y; omega)).bind ?_
  refine (readsBytes_readUnsigned (by omega)).bind_last ?_
  simp only [hop, hbit, hreserved, Bool.false_eq_true, if_false]
  exact (readsBytes_checkReserved_zero settings).bind_pure fun _ => info

end RegionInfo

/-! ## Adaptive pixels -/

namespace AtPixel

/-- Whether the coordinates fit their fields. -/
structure Fits (p : AtPixel) : Prop where
  x : -128 ≤ p.x ∧ p.x ≤ 127
  y : -128 ≤ p.y ∧ p.y ≤ 127

instance (p : AtPixel) : Decidable p.Fits :=
  decidable_of_iff ((-128 ≤ p.x ∧ p.x ≤ 127) ∧ -128 ≤ p.y ∧ p.y ≤ 127)
    ⟨fun h => ⟨h.1, h.2⟩, fun h => ⟨h.x, h.y⟩⟩

/-- The bytes of the coordinates. -/
def bytes (p : AtPixel) : Bytes := toBigEndian 1 (ofSigned 8 p.x) ++ toBigEndian 1 (ofSigned 8 p.y)

theorem write_eq (w : Writer) (p : AtPixel) : write w p = w.writeBytes p.bytes := by
  simp [write, bytes, Writer.writeSigned, Writer.writeUnsigned, Writer.writeBytes,
    Array.append_assoc]

theorem readsBytes {p : AtPixel} (h : p.Fits) : ReadsBytes read p.bytes p := by
  have hx := h.x
  have hy := h.y
  refine (readsBytes_readSigned (n := p.x) (by norm_num; omega) (by norm_num; omega)).bind ?_
  exact (readsBytes_readSigned (n := p.y) (by norm_num; omega) (by norm_num; omega)).bind_pure
    (AtPixel.mk p.x)

/-- The bytes of several pixels. -/
def bytesOf (pixels : List AtPixel) : Bytes := pixels.foldr (fun p rest => p.bytes ++ rest) #[]

theorem writeAll_eq (w : Writer) (pixels : List AtPixel) :
    writeAll w pixels = w.writeBytes (bytesOf pixels) := by
  have hwrite : write = fun w p => w.writeBytes p.bytes := funext₂ write_eq
  unfold writeAll bytesOf
  rw [hwrite, Writer.foldl_writeBytes]

theorem readsBytes_readCausal {pixels : List AtPixel} (hfits : ∀ p ∈ pixels, p.Fits)
    (hcausal : ∀ p ∈ pixels, p.causal = true) :
    ReadsBytes (readCausal pixels.length) (bytesOf pixels) pixels := by
  induction pixels with
  | nil => exact readsBytes_pure []
  | cons p pixels ih =>
    have hrest := ih (fun q hq => hfits q (List.mem_cons_of_mem p hq))
      fun q hq => hcausal q (List.mem_cons_of_mem p hq)
    refine (readsBytes (hfits p List.mem_cons_self)).bind ?_
    simp only [hcausal p List.mem_cons_self, Bool.not_true, Bool.false_eq_true, if_false]
    exact hrest.bind_pure (p :: ·)

end AtPixel
end Bilevel

import Bilevel.Proofs.Region.Partial
import Bilevel.Proofs.Steps
import Bilevel.Text.Region

/-!
# The size of regions

A region that is decoded has the size that its region information gives, which was checked against
the limit: drawing pixels, rows or symbols onto a bitmap leaves its size alone.

## Main definitions

* `Region.Sized` — the bitmap of a region has the size that is given for it.
* `Region.Made` — it was made with this size after the limit was checked.

## Main results

* `Generic.made_of_decodeRegion`, `Refinement.made_of_decodeRegion`, `Text.made_of_decodeRegion`
  — decoded regions are made like that.
* `Refinement.read_of_decodeRegion` — the information of a refinement region is at its start.
-/

namespace Bilevel

/-- The bitmap of a region has the size that is given for it. -/
structure Region.Sized (region : Region) : Prop where
  width : region.bitmap.width = region.info.width
  height : region.bitmap.height = region.info.height

/-- The bitmap of a region was made with the size that is given for it, within the limit. -/
structure Region.Made (settings : DecodeSettings) (region : Region) : Prop
    extends Region.Sized region where
  limit : region.info.width * region.info.height ≤ settings.maxPixelCount

namespace Bitmap

/-- Two bitmaps have the same size. -/
structure SameSize (a b : Bitmap) : Prop where
  width : a.width = b.width
  height : a.height = b.height

theorem SameSize.refl (b : Bitmap) : b.SameSize b := ⟨rfl, rfl⟩

theorem SameSize.trans {a b c : Bitmap} (h : a.SameSize b) (h' : b.SameSize c) : a.SameSize c :=
  ⟨h.width.trans h'.width, h.height.trans h'.height⟩

theorem sameSize_set (b : Bitmap) (x y : Nat) (black : Bool) : (b.set x y black).SameSize b :=
  ⟨b.width_set x y black, b.height_set x y black⟩

/-- Colouring one pixel or none. -/
theorem sameSize_ite_set (b : Bitmap) (x y : Nat) (colours black : Bool) :
    (if colours then b.set x y black else b).SameSize b := by
  cases colours with
  | false => exact .refl b
  | true => exact sameSize_set b x y black

theorem sameSize_copyRow (b : Bitmap) (source target : Nat) :
    (b.copyRow source target).SameSize b :=
  ⟨b.width_copyRow source target, b.height_copyRow source target⟩

theorem sameSize_combine (b other : Bitmap) (x y : Int) (op : CombinationOperator) :
    (b.combine other x y op).SameSize b :=
  ⟨b.width_combine other x y op, b.height_combine other x y op⟩

theorem sameSize_fill (b : Bitmap) (black : Bool) : (b.fill black).SameSize b := ⟨rfl, rfl⟩

end Bitmap

open Bitmap

/-- Whatever is drawn into a new bitmap of the size that is given. -/
theorem Region.made_of_create {settings : DecodeSettings} {info : RegionInfo}
    {blank bitmap : Bitmap}
    (h : create settings.maxPixelCount info.width info.height = .ok blank)
    (hsame : bitmap.SameSize blank) : Region.Made settings ⟨info, bitmap⟩ := by
  obtain ⟨hle, rfl⟩ := create_eq_ok.mp h
  exact ⟨⟨hsame.width, hsame.height⟩, hle⟩

/-! ## Generic regions -/

namespace Generic

open Mq

theorem sameSize_decodePixels (neighbours : List AtPixel) (y count x : Nat) (decoder : Decoder)
    (contexts : Contexts) (bitmap : Bitmap) :
    (decodePixels neighbours y count x decoder contexts bitmap).1.SameSize bitmap := by
  induction count generalizing x decoder contexts bitmap with
  | zero => exact .refl bitmap
  | succ count ih => exact (ih ..).trans (sameSize_ite_set ..)

theorem sameSize_decodeRow (params : GenericParams) (y : Nat) (skip : Bool) (decoder : Decoder)
    (contexts : Contexts) (bitmap : Bitmap) :
    (decodeRow params y skip decoder contexts bitmap).2.1.SameSize bitmap := by
  unfold decodeRow
  generalize decodeSkip params skip decoder contexts = start
  obtain ⟨skip, contexts, decoder⟩ := start
  cases skip with
  | false => exact sameSize_decodePixels ..
  | true =>
    have hrow : (if y = 0 then bitmap else bitmap.copyRow (y - 1) y).SameSize bitmap := by
      split
      · exact .refl bitmap
      · exact sameSize_copyRow ..
    exact hrow

theorem sameSize_decodeRows {params : GenericParams} {count y : Nat} {skip : Bool}
    {decoder : Decoder} {contexts : Contexts} {bitmap : Bitmap}
    {result : Bitmap × Contexts × Decoder}
    (h : decodeRows params count y skip decoder contexts bitmap = .ok result) :
    result.1.SameSize bitmap := by
  induction count generalizing y skip decoder contexts bitmap with
  | zero =>
    cases h
    exact .refl bitmap
  | succ count ih =>
    rw [decodeRows_succ] at h
    obtain ⟨_, -, h⟩ := bind_eq_ok.mp h
    exact (ih h).trans (sameSize_decodeRow ..)

/-- A decoded generic region has the size that is given for it. -/
theorem made_of_decodeRegion {settings : DecodeSettings} {data : Bytes} {openLength : Bool}
    {region : Region} (h : decodeRegion settings data openLength = .ok region) :
    region.Made settings := by
  obtain ⟨⟨⟨info, params⟩, r⟩, -, h⟩ := bind_eq_ok.mp h
  dsimp -zeta only at h
  extract_lets decodeCoded at h
  have hsplit : ∃ info coded, decodeCoded (info, coded) = .ok region := by
    split at h
    · obtain ⟨⟨info, coded⟩, -, h⟩ := bind_eq_ok.mp h
      exact ⟨info, coded, h⟩
    · obtain ⟨⟨info, coded⟩, -, h⟩ := bind_eq_ok.mp h
      exact ⟨info, coded, h⟩
  obtain ⟨info, coded, h⟩ := hsplit
  obtain ⟨blank, hblank, h⟩ := bind_eq_ok.mp h
  obtain ⟨⟨bitmap, _⟩, hbitmap, h⟩ := bind_eq_ok.mp h
  obtain rfl := pure_eq_ok.mp h
  exact Region.made_of_create hblank (sameSize_decodeRows hbitmap)

end Generic

/-! ## Refinement regions -/

namespace Refinement

open Mq

theorem sameSize_decodePixels (params : RefinementParams) (reference : Bitmap) (skip : Bool)
    (y count x : Nat) (decoder : Decoder) (contexts : Contexts) (bitmap : Bitmap) :
    (decodePixels params reference skip y count x decoder contexts bitmap).1.SameSize bitmap := by
  induction count generalizing x decoder contexts bitmap with
  | zero => exact .refl bitmap
  | succ count ih => exact (ih ..).trans (sameSize_ite_set ..)

theorem sameSize_decodeRows {params : RefinementParams} {reference : Bitmap} {count y : Nat}
    {skip : Bool} {decoder : Decoder} {contexts : Contexts} {bitmap : Bitmap}
    {result : Bitmap × Contexts × Decoder}
    (h : decodeRows params reference count y skip decoder contexts bitmap = .ok result) :
    result.1.SameSize bitmap := by
  induction count generalizing y skip decoder contexts bitmap with
  | zero =>
    cases h
    exact .refl bitmap
  | succ count ih =>
    obtain ⟨_, -, h⟩ := bind_eq_ok.mp h
    exact (ih h).trans (sameSize_decodePixels ..)

/-- A decoded refinement region has the size that is given for it. -/
theorem made_of_decodeRegion {settings : DecodeSettings} {data : Bytes} {reference : Bitmap}
    {region : Region} (h : decodeRegion settings data reference = .ok region) :
    region.Made settings := by
  obtain ⟨⟨⟨info, params⟩, r⟩, -, h⟩ := bind_eq_ok.mp h
  dsimp only at h
  split at h
  · exact absurd h throw_ne_ok
  obtain ⟨blank, hblank, h⟩ := bind_eq_ok.mp h
  obtain ⟨⟨bitmap, _⟩, hbitmap, h⟩ := bind_eq_ok.mp h
  obtain rfl := pure_eq_ok.mp h
  exact Region.made_of_create hblank (sameSize_decodeRows hbitmap)

/-- What decoding a refinement region has done: it has read the information of the region, and
made a bitmap of the size that this gives. -/
theorem read_of_decodeRegion {settings : DecodeSettings} {data : Bytes} {reference : Bitmap}
    {region : Region} (h : decodeRegion settings data reference = .ok region) :
    region.Sized ∧ ∃ r, RegionInfo.read settings (Reader.ofBytes data) = .ok (region.info, r) := by
  refine ⟨(made_of_decodeRegion h).toSized, ?_⟩
  obtain ⟨⟨⟨info, params⟩, r⟩, hheader, h⟩ := bind_eq_ok.mp h
  obtain ⟨info', r', hinfo, hheader⟩ := run_bind_eq_ok.mp hheader
  obtain ⟨flags, s, -, hheader⟩ := run_bind_eq_ok.mp hheader
  obtain ⟨_, s', -, hheader⟩ := run_bind_eq_ok.mp hheader
  have heq : info' = info := by
    dsimp only at hheader
    split at hheader
    · obtain ⟨atPixels, s'', -, hheader⟩ := run_bind_eq_ok.mp hheader
      cases hheader
      rfl
    · cases hheader
      rfl
  subst heq
  dsimp only at h
  split at h
  · exact absurd h throw_ne_ok
  obtain ⟨blank, -, h⟩ := bind_eq_ok.mp h
  obtain ⟨⟨bitmap, _⟩, -, h⟩ := bind_eq_ok.mp h
  obtain rfl := pure_eq_ok.mp h
  exact ⟨r', hinfo⟩

end Refinement

/-! ## Text regions -/

namespace Text

theorem sameSize_readInstances {params : Params} {symbols : Array Bitmap} {count : Nat}
    {cursor : Cursor} {region : Bitmap} {placed : Array Placement} {source source' : Source}
    {result : Bitmap × Array Placement}
    (h : readInstances params symbols count cursor region placed source = .ok (result, source')) :
    result.1.SameSize region := by
  induction count generalizing cursor region placed source with
  | zero =>
    obtain ⟨_, s, -, h⟩ := run_bind_eq_ok.mp h
    cases h
    exact .refl region
  | succ count ih =>
    unfold readInstances at h
    obtain ⟨⟨cursor, s⟩, source, -, h⟩ := run_bind_eq_ok.mp h
    dsimp -zeta only at h
    extract_lets placeNext at h
    have hnext : ∃ across source, placeNext across source = .ok (result, source') := by
      split at h
      · obtain ⟨across, source, -, h⟩ := run_bind_eq_ok.mp h
        exact ⟨across, source, h⟩
      · obtain ⟨across, source, -, h⟩ := run_bind_eq_ok.mp h
        exact ⟨across, source, h⟩
    obtain ⟨across, source, h⟩ := hnext
    obtain ⟨t, source, -, h⟩ := run_bind_eq_ok.mp h
    obtain ⟨id, source, -, h⟩ := run_bind_eq_ok.mp h
    cases hsymbol : symbols[id]? with
    | none =>
      rw [hsymbol] at h
      cases h
    | some symbol =>
      rw [hsymbol] at h
      obtain ⟨bitmap, source, -, h⟩ := run_bind_eq_ok.mp h
      obtain ⟨placed, source, -, h⟩ := run_bind_eq_ok.mp h
      exact (ih h).trans (sameSize_combine ..)

/-- A decoded text region has the size that is given for it. -/
theorem made_of_decodeRegion {settings : DecodeSettings} {data : Bytes} {symbols : Array Bitmap}
    {tables : List Huffman.Table} {decoded : TextRegion}
    (h : decodeRegion settings data symbols tables = .ok decoded) :
    decoded.region.Made settings := by
  obtain ⟨⟨header, r⟩, -, h⟩ := bind_eq_ok.mp h
  obtain ⟨blank, hblank, h⟩ := bind_eq_ok.mp h
  obtain ⟨source, -, h⟩ := bind_eq_ok.mp h
  obtain ⟨⟨⟨bitmap, placements⟩, source'⟩, hinstances, h⟩ := bind_eq_ok.mp h
  obtain ⟨cursor, source, -, hinstances⟩ := run_bind_eq_ok.mp hinstances
  obtain rfl := pure_eq_ok.mp h
  have hstart : (if header.startsBlack then blank.fill true else blank).SameSize blank := by
    split
    · exact sameSize_fill ..
    · exact .refl blank
  exact Region.made_of_create hblank ((sameSize_readInstances hinstances).trans hstart)

end Text
end Bilevel

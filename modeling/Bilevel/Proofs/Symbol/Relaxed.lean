import Bilevel.Proofs.Region.Relaxed
import Bilevel.Symbol.Dictionary
import Bilevel.Text.Region

/-!
# Symbols under relaxed settings

Text regions and symbol dictionaries check a size before they make a bitmap, whatever it is for: the
region, a refined instance, a symbol, the symbols of a class side by side. Under relaxed settings
each of these checks passes wherever it did, and nothing else about them depends on the settings. A
text region carries its limit along with how its instances are coded, so its header isn't the same
under other settings; it is the same but for that limit.

## Main results

* `Text.survives_decodeRegion` — a decoded text region survives.
* `Symbol.survives_decode` — so does a decoded dictionary.
-/

namespace Bilevel

variable {settings settings' : DecodeSettings} (h : settings.Relaxed settings')

/-! ## Text regions -/

namespace Text

/-- The same coding of instances, under another limit. -/
def Params.withLimit (params : Params) (maxPixels : Nat) : Params :=
  { params with maxPixelCount := maxPixels }

@[simp] theorem Params.refines_withLimit (params : Params) (maxPixels : Nat) :
    (params.withLimit maxPixels).refines = params.refines := rfl

@[simp] theorem Params.logStrips_withLimit (params : Params) (maxPixels : Nat) :
    (params.withLimit maxPixels).logStrips = params.logStrips := rfl

/-- The same header, under another limit. -/
def Header.withLimit (header : Header) (maxPixels : Nat) : Header :=
  { header with params := header.params.withLimit maxPixels }

include h in
theorem Selections.survives_ofFlags (flags : Nat) :
    Survives Eq (ofFlags settings flags) (ofFlags settings' flags) :=
  .bind_eq (h.checkReserved _) fun _ => .refl _

include h in
/-- The header of a text region persists, but for the limit that it carries. -/
theorem Header.persists_read :
    Persists (fun header header' => header.params.maxPixelCount = settings.maxPixelCount ∧
        header' = header.withLimit settings'.maxPixelCount)
      (Header.read settings) (Header.read settings') := by
  refine .bind_eq (RegionInfo.persists_read h) fun info => .step fun flags => ?_
  dsimp only
  cases CombinationOperator.ofCode? (flags / 128 % 4) with
  | none => exact .throw _
  | some operator =>
    dsimp only
    split
    · refine .step fun fields => .bind_eq (.lift (Selections.survives_ofFlags h fields)) fun s => ?_
      exact .step fun selections => .step fun style => .step fun count => .pure ⟨rfl, rfl⟩
    · exact .step fun selections => .step fun style => .step fun count => .pure ⟨rfl, rfl⟩

section Instances

variable {params : Params} {maxPixels : Nat} (hle : params.maxPixelCount ≤ maxPixels)

include hle

theorem persists_readRefinedInstance (symbol : Bitmap) : Persists Eq
    (readRefinedInstance params symbol)
    (readRefinedInstance (params.withLimit maxPixels) symbol) := by
  refine .step fun deltaWidth => .step fun deltaHeight => .step fun deltaX => ?_
  refine .step fun deltaY => .step fun width => .step fun height => ?_
  refine .step fun dx => .step fun dy => ?_
  exact .bind_eq (.lift (Bitmap.survives_create hle _ _)) fun _ => .refl _

theorem persists_readInstance (symbol : Bitmap) : Persists Eq
    (readInstance params symbol) (readInstance (params.withLimit maxPixels) symbol) := by
  unfold readInstance
  rw [Params.refines_withLimit]
  split
  · refine .step fun refined => ?_
    split
    · exact persists_readRefinedInstance hle symbol
    · exact .refl _
  · exact .refl _

theorem persists_readInstances (symbols : Array Bitmap) (count : Nat) (cursor : Cursor)
    (region : Bitmap) (placed : Array Placement) : Persists Eq
      (readInstances params symbols count cursor region placed)
      (readInstances (params.withLimit maxPixels) symbols count cursor region placed) := by
  induction count generalizing cursor region placed with
  | zero => exact .refl _
  | succ count ih =>
    refine .step fun ⟨cursor, s⟩ => ?_
    dsimp -zeta only
    extract_lets placeAt placeAt'
    have hplace : ∀ across, Persists Eq (placeAt across) (placeAt' across) := by
      refine fun across => .step fun t => .step fun id => ?_
      cases symbols[id]? with
      | none => exact .throw _
      | some symbol =>
        refine .bind_eq (persists_readInstance hle symbol) fun bitmap => ?_
        exact .step fun ⟨placement, last⟩ => ih _ _ _
    rw [Params.logStrips_withLimit]
    split <;> exact .step hplace

theorem persists_decodeInstances (symbols : Array Bitmap) (count : Nat) (region : Bitmap) :
    Persists Eq (decodeInstances params symbols count region)
      (decodeInstances (params.withLimit maxPixels) symbols count region) :=
  .step fun cursor => persists_readInstances hle symbols count cursor region #[]

end Instances

include h

theorem survives_decodeRegion (data : Bytes) (symbols : Array Bitmap)
    (tables : List Huffman.Table) : Survives Eq (decodeRegion settings data symbols tables)
      (decodeRegion settings' data symbols tables) := by
  refine .bind (Header.persists_read h _) ?_
  rintro ⟨header, r⟩ ⟨_, _⟩ ⟨⟨hlimit, rfl⟩, rfl⟩
  have hle : header.params.maxPixelCount ≤ settings'.maxPixelCount := hlimit ▸ h.maxPixelCount
  refine .bind_eq (Bitmap.survives_create h.maxPixelCount _ _) fun blank => ?_
  refine .step fun source => ?_
  exact .bind_eq ((persists_decodeInstances hle symbols _ _).survives source) fun _ => .refl _

end Text

/-! ## Symbol dictionaries -/

namespace Symbol

variable {style : Style}

include h

theorem Header.persists_read : Persists Eq (Header.read settings) (Header.read settings') :=
  .step fun _ => .bind_eq (.lift (h.checkReserved _)) fun _ => .refl _

theorem persists_readAggregate (style : Style) (symbols : Array Bitmap) (width height : Nat) :
    Persists Eq (readAggregate settings style symbols width height)
      (readAggregate settings' style symbols width height) := by
  refine .step fun count => ?_
  dsimp only
  split
  · exact .throw_bind _
  · refine .bind_eq (.lift (Bitmap.survives_create h.maxPixelCount _ _)) fun bitmap => ?_
    split
    · exact .refl _
    · have hle : (style.instances settings).maxPixelCount ≤ settings'.maxPixelCount :=
        h.maxPixelCount
      exact .bind_eq (Text.persists_decodeInstances hle _ _ _) fun _ => .refl _

theorem persists_readPlain (style : Style) (width height : Nat) :
    Persists Eq (readPlain settings style width height)
      (readPlain settings' style width height) :=
  .of_survives fun _ => .bind_eq (Bitmap.survives_create h.maxPixelCount _ _) fun _ => .refl _

theorem persists_readClass (style : Style) (room : Nat) (c : Class) (symbols : Array Bitmap) :
    Persists Eq (readClass settings style room c symbols)
      (readClass settings' style room c symbols) := by
  induction room generalizing c symbols with
  | zero => exact .refl _
  | succ room ih =>
    refine .step fun value => ?_
    cases value with
    | none => exact .refl _
    | some delta =>
      refine .step fun width => .step fun total => .step fun s => ?_
      split
      · exact ih _ _
      · cases style.aggregates with
        | true =>
          exact .bind_eq (persists_readAggregate h style symbols _ _) fun symbol => ih _ _
        | false => exact .bind_eq (persists_readPlain h style _ _) fun symbol => ih _ _

theorem persists_readCollective (width height : Nat) :
    Persists Eq (readCollective settings width height)
      (readCollective settings' width height) := by
  refine .of_survives fun s => ?_
  cases s with
  | decisions decoder contexts => exact .refl _
  | codes reader tables ids =>
    refine .step fun ⟨size, r⟩ => .step fun ⟨_, r⟩ => ?_
    dsimp only
    split
    · exact .throw_bind _
    · split
      · exact .throw_bind _
      · rw [if_neg (by have := h.maxPixelCount; omega)]
        exact .refl _

theorem survives_cut (bitmap : Bitmap) (x : Nat) (widths : List Nat) (symbols : Array Bitmap) :
    Survives Eq (cut settings bitmap x widths symbols)
      (cut settings' bitmap x widths symbols) := by
  induction widths generalizing x symbols with
  | nil => exact .refl _
  | cons width widths ih =>
    exact .bind_eq (Bitmap.survives_crop h.maxPixelCount _ _ _ _ _) fun symbol => ih _ _

theorem persists_readClasses (style : Style) (total limit height : Nat) (symbols : Array Bitmap) :
    Persists Eq (readClasses settings style total limit height symbols)
      (readClasses settings' style total limit height symbols) := by
  induction limit generalizing height symbols with
  | zero => exact .refl _
  | succ limit ih =>
    rw [readClasses, readClasses]
    split
    · exact .refl _
    · refine .step fun delta => .step fun height => ?_
      refine .bind_eq (persists_readClass h style _ _ _) fun ⟨c, symbols⟩ => .step fun s => ?_
      split
      · exact .bind_eq (persists_readCollective h _ _) fun collective =>
          .bind_eq (.lift (survives_cut h _ _ _ _)) fun symbols => ih _ _
      · exact ih _ _

/-- Under relaxed settings, a dictionary that can be decoded is the same. -/
theorem survives_decode (data : Bytes) (input : Array Bitmap) (tables : List Huffman.Table)
    (last : Option (Nat × SymbolDictionary)) :
    Survives Eq (decode settings data input tables last)
      (decode settings' data input tables last) := by
  refine .bind_eq ((Header.persists_read h).survives _) fun ⟨header, r⟩ => ?_
  refine .step fun total => .step fun source => ?_
  have hread : Persists Eq (readSymbols settings header input (valueLimit source))
      (readSymbols settings' header input (valueLimit source)) :=
    .bind_eq (persists_readClasses h _ _ _ _ _) fun _ => .refl _
  exact .bind_eq (hread.survives source) fun _ => .refl _

end Symbol
end Bilevel

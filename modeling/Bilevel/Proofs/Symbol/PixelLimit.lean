import Bilevel.Proofs.Region.Size
import Bilevel.Proofs.Symbol.Reads

/-!
# The pixel limit in regions and symbols

A bitmap is made in a few places only: for a region, for a symbol, for the symbols of a class side
by side, for a refined instance, and for a part of another bitmap. Everywhere its size is checked
first, and whatever is decoded into it afterwards leaves its size alone. So no region and no symbol
has more pixels than the settings allow, whatever the data, and neither has a symbol that a
dictionary takes over from another.

## Main definitions

* `Symbol.AllWithin` — all symbols are within the limit.

## Main results

* `Region.Made.within` — regions.
* `Symbol.within_of_decode` — the symbols of a dictionary.
-/

namespace Bilevel

open Bitmap

theorem Bitmap.SameSize.within {a b : Bitmap} (h : a.SameSize b) {maxPixels : Nat}
    (hb : b.Within maxPixels) : a.Within maxPixels := by
  unfold Within at hb ⊢
  rw [h.width, h.height]
  exact hb

theorem Bitmap.within_crop {b b' : Bitmap} {maxPixels x y width height : Nat}
    (h : b.crop maxPixels x y width height = .ok b') : b'.Within maxPixels := by
  unfold crop at h
  split at h
  · cases h
  · next hle =>
    cases h
    unfold Within
    rw [width_window, height_window]
    exact Nat.not_lt.mp hle

theorem Bitmap.sides_of_ofPacked {width height : Nat} {data : Bytes} {b : Bitmap}
    (h : ofPacked width height data = some b) : b.width = width ∧ b.height = height := by
  unfold ofPacked at h
  split at h
  · cases h
    exact ⟨rfl, rfl⟩
  · cases h

/-! ## Regions -/

section Regions

variable {settings : DecodeSettings}

/-- A decoded region is within the limit. -/
theorem Region.Made.within {region : Region} (h : region.Made settings) :
    region.bitmap.Within settings.maxPixelCount := by
  unfold Within
  rw [h.width, h.height]
  exact h.limit

/-- The limit for instances is that of the settings. -/
theorem Text.maxPixelCount_of_readHeader {r r' : Reader} {header : Text.Header}
    (h : Text.Header.read settings r = .ok (header, r')) :
    header.params.maxPixelCount = settings.maxPixelCount := by
  have hgives : Gives (fun header : Text.Header =>
      header.params.maxPixelCount = settings.maxPixelCount) (Text.Header.read settings) := by
    refine .bind_any fun info => .bind_any fun flags => ?_
    split
    · extract_lets refines layout readRest
      have hrest : ∀ selections, Gives (fun header : Text.Header =>
          header.params.maxPixelCount = settings.maxPixelCount) (readRest selections) :=
        fun _ => .bind_any fun _ => .bind_any fun _ => .pure rfl
      split
      · exact .bind_any fun _ => .bind_any fun _ => .bind_any hrest
      · exact .bind_any hrest
    · exact .throw _
  exact hgives r header r' h

end Regions

/-! ## Refinements -/

theorem Source.sameSize_readRefinement {data : Option Bytes} {params : RefinementParams}
    {reference bitmap result : Bitmap} {s s' : Source}
    (h : readRefinement data params reference bitmap s = .ok (result, s')) :
    result.SameSize bitmap := by
  rcases readRefinement_eq_ok h with ⟨_, _, _, _, -, -, hdecode⟩ | ⟨-, _, _, _, hdecode⟩
  · exact Refinement.sameSize_decodeRows hdecode
  · exact Refinement.sameSize_decodeRows hdecode

/-- A refined instance is decoded into a bitmap that was checked. -/
theorem Text.within_of_readRefinedInstance (params : Params) (symbol : Bitmap) :
    Gives (Within params.maxPixelCount) (readRefinedInstance params symbol) := by
  refine .bind_any fun deltaWidth => .bind_any fun deltaHeight => .bind_any fun deltaX => ?_
  refine .bind_any fun deltaY => .bind_any fun width => .bind_any fun height => ?_
  refine .bind_any fun dx => .bind_any fun dy => ?_
  refine .bind (P := Within params.maxPixelCount) ?_ fun bitmap hbitmap => .bind_any fun data => ?_
  · intro s bitmap s' h
    obtain ⟨hcreate, -⟩ := run_lift_eq_ok.mp h
    exact within_create hcreate
  · intro s result s' h
    exact (Source.sameSize_readRefinement h).within hbitmap

/-! ## Symbols -/

namespace Symbol

variable {settings : DecodeSettings} {style : Style}

/-- All symbols are within the limit. -/
def AllWithin (maxPixels : Nat) (symbols : Array Bitmap) : Prop :=
  ∀ symbol ∈ symbols, symbol.Within maxPixels

theorem AllWithin.push {maxPixels : Nat} {symbols : Array Bitmap} {symbol : Bitmap}
    (h : AllWithin maxPixels symbols) (hsymbol : symbol.Within maxPixels) :
    AllWithin maxPixels (symbols.push symbol) := by
  intro s hs
  rcases Array.mem_push.mp hs with hs | rfl
  · exact h s hs
  · exact hsymbol

theorem gives_create (maxPixels width height : Nat) : Gives (Within maxPixels)
    (liftM (Bitmap.create maxPixels width height) : Decoding Bitmap) := by
  intro s bitmap s' h
  exact within_create (run_lift_eq_ok.mp h).1

theorem gives_readRefined {maxPixels : Nat} (style : Style) (symbols : Array Bitmap)
    {bitmap : Bitmap} (hbitmap : bitmap.Within maxPixels) :
    Gives (Within maxPixels) (readRefined style symbols bitmap) := by
  refine .bind_any fun id => .bind_any fun dx => .bind_any fun dy => .bind_any fun data => ?_
  cases symbols[id]? with
  | none => exact .throw _
  | some reference =>
    intro s result s' h
    exact (Source.sameSize_readRefinement h).within hbitmap

theorem gives_readAggregate (settings : DecodeSettings) (style : Style) (symbols : Array Bitmap)
    (width height : Nat) : Gives (Within settings.maxPixelCount)
      (readAggregate settings style symbols width height) := by
  refine .bind_any fun count => ?_
  extract_lets compose
  have hcompose : ∀ u, Gives (Within settings.maxPixelCount) (compose u) := by
    intro _
    refine (gives_create settings.maxPixelCount width height).bind fun bitmap hbitmap => ?_
    split
    · exact gives_readRefined style symbols hbitmap
    · intro s result s' h
      obtain ⟨⟨drawn, _⟩, s₁, hdrawn, h⟩ := run_bind_eq_ok.mp h
      obtain ⟨cursor, s₂, -, hdrawn⟩ := run_bind_eq_ok.mp hdrawn
      cases h
      exact (Text.sameSize_readInstances hdrawn).within hbitmap
  split
  · exact .bind_any hcompose
  · exact hcompose ()

theorem gives_readPlain (settings : DecodeSettings) (style : Style) (width height : Nat) :
    Gives (Within settings.maxPixelCount) (readPlain settings style width height) := by
  intro s bitmap s' h
  obtain ⟨blank, hblank, h⟩ := bind_eq_ok.mp h
  cases s with
  | decisions decoder contexts =>
    obtain ⟨⟨_, _, _⟩, hdecode, h⟩ := bind_eq_ok.mp h
    cases h
    exact (Generic.sameSize_decodeRows hdecode).within (within_create hblank)
  | codes reader tables ids =>
    cases h
    exact within_create hblank

theorem gives_readClass (room : Nat) (c : Class) {symbols : Array Bitmap}
    (hsymbols : AllWithin settings.maxPixelCount symbols) :
    Gives (fun x : Class × Array Bitmap => AllWithin settings.maxPixelCount x.2)
      (readClass settings style room c symbols) := by
  induction room generalizing c symbols with
  | zero =>
    refine .bind_any fun value => ?_
    cases value with
    | none => exact .pure hsymbols
    | some delta => exact .throw _
  | succ room ih =>
    refine .bind_any fun value => ?_
    cases value with
    | none => exact .pure hsymbols
    | some delta =>
      refine .bind_any fun width => .bind_any fun total => .bind_any fun s => ?_
      split
      · exact ih _ hsymbols
      · cases style.aggregates with
        | true =>
          exact (gives_readAggregate settings style symbols _ _).bind fun symbol hsymbol =>
            ih _ (hsymbols.push hsymbol)
        | false =>
          exact (gives_readPlain settings style _ _).bind fun symbol hsymbol =>
            ih _ (hsymbols.push hsymbol)

/-- The symbols of a class are side by side in a bitmap that was checked. -/
theorem within_of_readCollective {width height : Nat} {s s' : Source} {bitmap : Bitmap}
    (hcollects : collects style s = true)
    (h : readCollective settings width height s = .ok (bitmap, s')) :
    bitmap.Within settings.maxPixelCount := by
  cases s with
  | decisions decoder contexts => cases hcollects
  | codes reader tables ids =>
    obtain ⟨⟨size, r₁⟩, -, h⟩ := bind_eq_ok.mp h
    obtain ⟨⟨_, r₂⟩, -, h⟩ := bind_eq_ok.mp h
    dsimp only at h
    split at h
    · exact absurd h throw_ne_ok
    split at h
    · exact absurd h throw_ne_ok
    next hle =>
    obtain ⟨⟨packed, r₃⟩, -, h⟩ := bind_eq_ok.mp h
    dsimp only at h
    split at h
    · next hpacked =>
      cases h
      unfold Within
      rw [(sides_of_ofPacked hpacked).1, (sides_of_ofPacked hpacked).2]
      exact Nat.not_lt.mp hle
    · exact absurd h throw_ne_ok

theorem allWithin_cut {bitmap : Bitmap} {x : Nat} {widths : List Nat} {symbols cut' : Array Bitmap}
    (hsymbols : AllWithin settings.maxPixelCount symbols)
    (h : cut settings bitmap x widths symbols = .ok cut') :
    AllWithin settings.maxPixelCount cut' := by
  induction widths generalizing x symbols with
  | nil =>
    cases h
    exact hsymbols
  | cons width widths ih =>
    obtain ⟨symbol, hcrop, h⟩ := bind_eq_ok.mp h
    exact ih (hsymbols.push (within_crop hcrop)) h

theorem gives_readClasses (total limit height : Nat) {symbols : Array Bitmap}
    (hsymbols : AllWithin settings.maxPixelCount symbols) :
    Gives (AllWithin settings.maxPixelCount)
      (readClasses settings style total limit height symbols) := by
  induction limit generalizing height symbols with
  | zero => exact .throw _
  | succ limit ih =>
    rw [readClasses]
    split
    · exact .pure hsymbols
    · refine .bind_any fun delta => .bind_any fun height => ?_
      refine (gives_readClass _ _ hsymbols).bind fun read hclass => .bind_any fun s => ?_
      obtain ⟨c, symbols⟩ := read
      dsimp only
      split
      · refine .bind_any fun collective => ?_
        intro s₁ result s' h
        obtain ⟨cut', s₂, hcut, h⟩ := run_bind_eq_ok.mp h
        exact ih _ (allWithin_cut hclass (run_lift_eq_ok.mp hcut).1) s₂ result s' h
      · exact ih _ hclass

theorem allWithin_takeRun {maxPixels : Nat} {symbols exported taken : Array Bitmap}
    {exporting : Bool} {index index' : Nat} {run : Int} (hsymbols : AllWithin maxPixels symbols)
    (hexported : AllWithin maxPixels exported)
    (h : takeRun symbols exporting index exported run = .ok (index', taken)) :
    AllWithin maxPixels taken := by
  unfold takeRun at h
  split at h
  · cases h
  · cases h
    split
    · intro s hs
      rcases Array.mem_append.mp hs with hs | hs
      · exact hexported s hs
      · obtain ⟨k, hk, rfl⟩ := Array.mem_extract_iff_getElem.mp hs
        exact hsymbols _ (Array.getElem_mem _)
    · exact hexported

theorem gives_readExported {maxPixels : Nat} {symbols : Array Bitmap} (limit : Nat)
    (exporting : Bool) (index : Nat) {exported : Array Bitmap}
    (hsymbols : AllWithin maxPixels symbols) (hexported : AllWithin maxPixels exported) :
    Gives (AllWithin maxPixels) (readExported symbols limit exporting index exported) := by
  induction limit generalizing exporting index exported with
  | zero => exact .throw _
  | succ limit ih =>
    rw [readExported]
    split
    · exact .pure hexported
    · refine .bind_any fun run => ?_
      intro s result s' h
      obtain ⟨⟨index', taken⟩, s₁, htake, h⟩ := run_bind_eq_ok.mp h
      exact ih _ _ (allWithin_takeRun hsymbols hexported (run_lift_eq_ok.mp htake).1) s₁ result s' h

/-- All symbols that a dictionary makes available are within the limit, if those that it gets from
others are. -/
theorem within_of_decode {data : Bytes} {input : Array Bitmap} {tables : List Huffman.Table}
    {last : Option (Nat × SymbolDictionary)} {dictionary : SymbolDictionary}
    (hinput : AllWithin settings.maxPixelCount input)
    (h : decode settings data input tables last = .ok dictionary) :
    AllWithin settings.maxPixelCount dictionary.symbols := by
  obtain ⟨⟨header, r⟩, -, h⟩ := bind_eq_ok.mp h
  obtain ⟨total, -, h⟩ := bind_eq_ok.mp h
  obtain ⟨source, -, h⟩ := bind_eq_ok.mp h
  obtain ⟨⟨exported, source'⟩, hread, h⟩ := bind_eq_ok.mp h
  cases h
  have hgives : Gives (AllWithin settings.maxPixelCount)
      (readSymbols settings header input (valueLimit source)) := by
    refine (gives_readClasses _ _ _ hinput).bind fun symbols hsymbols => ?_
    have hnone : AllWithin settings.maxPixelCount #[] := by simp [AllWithin]
    refine (gives_readExported _ _ _ hsymbols hnone).bind fun exported hexported => ?_
    split
    · exact .bind_any fun _ => .pure hexported
    · exact .pure hexported
  exact hgives source exported source' hread

end Symbol

end Bilevel

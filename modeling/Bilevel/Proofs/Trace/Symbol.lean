import Bilevel.Proofs.Symbol.Offsets
import Bilevel.Proofs.Symbol.PixelLimit
import Bilevel.Proofs.Trace.Basic

/-!
# What is noted about regions and symbols

Regions and dictionaries are decoded with a trace as they are without. Every bitmap that is made on
the way has at most as many pixels as the settings allow, also if decoding fails later on. Every
refinement is one of bitmaps that were made or were there before, at a distance that fits.

## Main definitions

* `Event.Sound` — what is sure about all that is noted.
* `Event.Still` — a reference has the place of what refines it.

## Main results

* `Generic.traces_decodeRegionTraced`, `Refinement.traces_decodeRegionTraced`,
  `Text.traces_decodeRegionTraced` — regions.
* `Symbol.traces_decodeTraced` — dictionaries.
-/

namespace Bilevel

open Tracing

namespace Event

/-- A bitmap that is made has at most `maxPixels` pixels, and a refinement is accepted. It is known
from watching it whether a coordinate doesn't fit. -/
def Sound (maxPixels : Nat) : Event → Prop
  | made width height => width * height ≤ maxPixels
  | refined r overflows =>
    r.Accepted maxPixels ∧ ∃ decoder contexts, (r.decodeWatched decoder contexts).2 = overflows

/-- The reference of a refinement has the same place. -/
def Still : Event → Prop
  | made _ _ => True
  | refined r _ => r.params.dx = 0 ∧ r.params.dy = 0

end Event

/-! ## Bitmaps -/

namespace Bitmap

variable {P : Event → Prop} {maxPixels width height : Nat}
  (h : width * height ≤ maxPixels → P (.made width height))

include h

theorem traces_createTraced :
    Traces P (createTraced maxPixels width height) (create maxPixels width height) := by
  unfold createTraced create
  split
  · exact .throw _
  · next hle => exact .make (h (Nat.not_lt.mp hle))

theorem traces_cropTraced (b : Bitmap) (x y : Nat) :
    Traces P (b.cropTraced maxPixels x y width height) (b.crop maxPixels x y width height) := by
  unfold cropTraced crop
  split
  · exact .throw _
  · next hle =>
    refine .make ?_
    rw [width_window, height_window]
    exact h (Nat.not_lt.mp hle)

end Bitmap

/-! ## Refinements -/

section

variable {P : Event → Prop} {r : Refining}
  (h : ∀ decoder contexts, P (.refined r (r.decodeWatched decoder contexts).2))

include h

theorem Refining.traces_decodeTraced (decoder : Mq.Decoder) (contexts : Mq.Contexts) :
    Traces P (r.decodeTraced decoder contexts)
      (Refinement.decodeBitmap r.params r.reference decoder contexts r.bitmap) := by
  rw [← decodeWatched_fst]
  exact .note_bind (h decoder contexts) (.lift _)

theorem Source.follows_readRefinementTraced (data : Option Bytes) :
    Follows P (readRefinementTraced data r) (readRefinement data r.params r.reference r.bitmap) := by
  intro s
  cases data with
  | some data => exact (Refining.traces_decodeTraced h _ _).bind fun _ _ => .pure _
  | none =>
    cases s with
    | decisions decoder contexts =>
      exact (Refining.traces_decodeTraced h _ _).bind fun _ _ => .pure _
    | codes reader tables ids =>
      exact (Refining.traces_decodeTraced h _ _).bind fun _ _ => .pure _

end

theorem Refining.Accepted.sound {r : Refining} {maxPixels : Nat} (h : r.Accepted maxPixels)
    (decoder : Mq.Decoder) (contexts : Mq.Contexts) :
    (Event.refined r (r.decodeWatched decoder contexts).2).Sound maxPixels :=
  ⟨h, decoder, contexts, rfl⟩

/-! ## Instances -/

namespace Text

variable {params : Params} (hat : params.style.atPixels.Fits)

include hat

theorem follows_readRefinedInstanceTraced {symbol : Bitmap}
    (hsymbol : symbol.Within params.maxPixelCount) :
    Follows (Event.Sound params.maxPixelCount) (readRefinedInstanceTraced params symbol)
      (readRefinedInstance params symbol) := by
  refine .lift_bind_any fun deltaWidth => .lift_bind_any fun deltaHeight => ?_
  refine .lift_bind_any fun deltaX => .lift_bind_any fun deltaY => ?_
  refine .check_bind fun width _ => .check_bind fun height _ => ?_
  refine .check_bind fun dx hdx => .check_bind fun dy hdy => ?_
  refine .traced_bind (Bitmap.traces_createTraced id) fun bitmap hbitmap => ?_
  refine .lift_bind_any fun data => Source.follows_readRefinementTraced (Refining.Accepted.sound ?_) _
  obtain ⟨hfitsX, rfl⟩ := checkSigned_eq_ok.mp hdx
  obtain ⟨hfitsY, rfl⟩ := checkSigned_eq_ok.mp hdy
  exact ⟨hfitsX, hfitsY, hat, Bitmap.within_create hbitmap, hsymbol⟩

theorem follows_readInstanceTraced {symbol : Bitmap}
    (hsymbol : symbol.Within params.maxPixelCount) :
    Follows (Event.Sound params.maxPixelCount) (readInstanceTraced params symbol)
      (readInstance params symbol) := by
  unfold readInstanceTraced readInstance
  split
  · refine .lift_bind_any fun refined => ?_
    cases refined with
    | true => exact follows_readRefinedInstanceTraced hat hsymbol
    | false => exact .pure symbol
  · exact .pure symbol

theorem follows_readInstancesTraced {symbols : Array Bitmap}
    (hsymbols : Symbol.AllWithin params.maxPixelCount symbols) (count : Nat) (cursor : Cursor)
    (region : Bitmap) (placed : Array Placement) :
    Follows (Event.Sound params.maxPixelCount)
      (readInstancesTraced params symbols count cursor region placed)
      (readInstances params symbols count cursor region placed) := by
  induction count generalizing cursor region placed with
  | zero => exact .lift_bind_any fun _ => .pure _
  | succ count ih =>
    rw [readInstancesTraced, readInstances]
    refine .lift_bind_any ?_
    rintro ⟨cursor, s⟩
    dsimp -zeta only
    extract_lets placeNextTraced placeNext
    have hnext : ∀ across, Follows (Event.Sound params.maxPixelCount) (placeNextTraced across)
        (placeNext across) := by
      intro across
      refine .check_bind fun t _ => .lift_bind_any fun id => ?_
      cases hsymbol : symbols[id]? with
      | none => exact .throw _
      | some symbol =>
        have hwithin := hsymbols symbol (Array.mem_of_getElem? hsymbol)
        refine (follows_readInstanceTraced hat hwithin).bind_any fun bitmap => ?_
        exact .check_bind fun placed _ => ih _ _ _
    split
    · exact (Follows.pure 0).bind_any hnext
    · exact .lift_bind_any hnext

/-- The instances of a text region. -/
theorem follows_decodeInstancesTraced {symbols : Array Bitmap}
    (hsymbols : Symbol.AllWithin params.maxPixelCount symbols) (count : Nat) (region : Bitmap) :
    Follows (Event.Sound params.maxPixelCount) (decodeInstancesTraced params symbols count region)
      (decodeInstances params symbols count region) :=
  .lift_bind_any fun cursor => follows_readInstancesTraced hat hsymbols count cursor region #[]

end Text

/-! ## Symbols -/

namespace Symbol

variable {settings : DecodeSettings} {style : Style} (hat : style.refinement.atPixels.Fits)

section

include hat

theorem follows_readRefinedTraced {maxPixels : Nat} {symbols : Array Bitmap} {bitmap : Bitmap}
    (hsymbols : AllWithin maxPixels symbols) (hbitmap : bitmap.Within maxPixels) :
    Follows (Event.Sound maxPixels) (readRefinedTraced style symbols bitmap)
      (readRefined style symbols bitmap) := by
  refine .lift_bind_any fun id => .lift_bind (Source.gives_readNumber _) fun dx hdx => ?_
  refine .lift_bind (Source.gives_readNumber _) fun dy hdy => .lift_bind_any fun data => ?_
  cases hreference : symbols[id]? with
  | none => exact .throw _
  | some reference =>
    have hwithin := hsymbols reference (Array.mem_of_getElem? hreference)
    have haccepted : Refining.Accepted maxPixels ⟨style.refinement.params dx dy, reference, bitmap⟩ :=
      ⟨hdx, hdy, hat, hbitmap, hwithin⟩
    exact Source.follows_readRefinementTraced haccepted.sound data

theorem follows_readAggregateTraced {symbols : Array Bitmap}
    (hsymbols : AllWithin settings.maxPixelCount symbols) (width height : Nat) :
    Follows (Event.Sound settings.maxPixelCount)
      (readAggregateTraced settings style symbols width height)
      (readAggregate settings style symbols width height) := by
  refine .lift_bind_any fun count => ?_
  extract_lets composeTraced compose
  have hcompose : ∀ u, Follows (Event.Sound settings.maxPixelCount) (composeTraced u)
      (compose u) := by
    intro _
    refine .traced_bind (Bitmap.traces_createTraced id) fun bitmap hbitmap => ?_
    split
    · exact follows_readRefinedTraced hat hsymbols (Bitmap.within_create hbitmap)
    · have hinstances : Follows (Event.Sound (style.instances settings).maxPixelCount)
          (Text.decodeInstancesTraced (style.instances settings) symbols count.toNat bitmap)
          (Text.decodeInstances (style.instances settings) symbols count.toNat bitmap) :=
        Text.follows_decodeInstancesTraced hat hsymbols count.toNat bitmap
      exact hinstances.bind_any fun _ => .pure _
  split
  · exact (Follows.throw _).bind_any hcompose
  · exact hcompose ()

end

theorem follows_readPlainTraced (settings : DecodeSettings) (style : Style) (width height : Nat) :
    Follows (Event.Sound settings.maxPixelCount) (readPlainTraced settings style width height)
      (readPlain settings style width height) := by
  intro s
  refine (Bitmap.traces_createTraced id).bind fun bitmap _ => ?_
  cases s with
  | decisions decoder contexts => exact .lift_bind fun _ _ => .pure _
  | codes reader tables ids => exact .pure _

theorem follows_readClassTraced (hat : style.refinement.atPixels.Fits) (room : Nat) (c : Class)
    {symbols : Array Bitmap} (hsymbols : AllWithin settings.maxPixelCount symbols) :
    Follows (Event.Sound settings.maxPixelCount) (readClassTraced settings style room c symbols)
      (readClass settings style room c symbols) := by
  induction room generalizing c symbols with
  | zero =>
    refine .lift_bind_any fun value => ?_
    cases value with
    | none => exact .pure _
    | some delta => exact .throw _
  | succ room ih =>
    refine .lift_bind_any fun value => ?_
    cases value with
    | none => exact .pure _
    | some delta =>
      refine .check_bind fun width _ => .check_bind fun total _ => .get_bind fun s => ?_
      dsimp only
      split
      · exact ih _ hsymbols s
      · split
        · exact (follows_readAggregateTraced hat hsymbols _ _).bind (gives_readAggregate _ _ _ _ _)
            (fun symbol hsymbol => ih _ (hsymbols.push hsymbol)) s
        · exact (follows_readPlainTraced _ _ _ _).bind (gives_readPlain _ _ _ _)
            (fun symbol hsymbol => ih _ (hsymbols.push hsymbol)) s

/-- The symbols of a class side by side, where they come so. -/
theorem traces_readCollectiveTraced {s : Source} (hcollects : collects style s = true)
    (width height : Nat) :
    Traces (Event.Sound settings.maxPixelCount) (readCollectiveTraced settings width height s)
      (readCollective settings width height s) := by
  cases s with
  | decisions decoder contexts => cases hcollects
  | codes reader tables ids =>
    refine .lift_bind fun ⟨size, reader⟩ _ => .lift_bind fun ⟨_, reader⟩ _ => .guard fun _ => ?_
    refine .guard fun hle => .lift_bind fun ⟨data, reader⟩ _ => ?_
    dsimp only
    cases hbitmap : Bitmap.ofPacked width height data with
    | none => exact .throw _
    | some bitmap =>
      obtain ⟨hwidth, hheight⟩ := Bitmap.sides_of_ofPacked hbitmap
      refine (Traces.make ?_).bind fun _ _ => .pure _
      rw [hwidth, hheight]
      exact Nat.not_lt.mp hle

theorem traces_cutTraced (bitmap : Bitmap) (x : Nat) (widths : List Nat) (symbols : Array Bitmap) :
    Traces (Event.Sound settings.maxPixelCount) (cutTraced settings bitmap x widths symbols)
      (cut settings bitmap x widths symbols) := by
  induction widths generalizing x symbols with
  | nil => exact .pure symbols
  | cons width widths ih =>
    exact (Bitmap.traces_cropTraced id bitmap x 0).bind fun symbol _ => ih _ _

theorem follows_readClassesTraced (hat : style.refinement.atPixels.Fits) (total limit height : Nat)
    {symbols : Array Bitmap} (hsymbols : AllWithin settings.maxPixelCount symbols) :
    Follows (Event.Sound settings.maxPixelCount)
      (readClassesTraced settings style total limit height symbols)
      (readClasses settings style total limit height symbols) := by
  induction limit generalizing height symbols with
  | zero => exact .throw _
  | succ limit ih =>
    rw [readClassesTraced, readClasses]
    split
    · exact .pure _
    · refine .lift_bind_any fun delta => .check_bind fun height _ => ?_
      refine (follows_readClassTraced hat _ _ hsymbols).bind (gives_readClass _ _ hsymbols) ?_
      rintro ⟨c, symbols⟩ hclass
      refine .get_bind fun s => ?_
      split
      · next hcollects =>
        refine (traces_readCollectiveTraced hcollects _ _).bind ?_
        rintro ⟨collective, s⟩ -
        exact Follows.traced_bind (traces_cutTraced collective 0 _ symbols)
          (fun cut' hcut => ih _ (allWithin_cut hclass hcut)) s
      · exact ih _ hclass s

/-- The symbols of a dictionary. -/
theorem follows_readSymbolsTraced (header : Header)
    (hat : header.style.refinement.atPixels.Fits) {input : Array Bitmap}
    (hinput : AllWithin settings.maxPixelCount input) (limit : Nat) :
    Follows (Event.Sound settings.maxPixelCount) (readSymbolsTraced settings header input limit)
      (readSymbols settings header input limit) := by
  refine (follows_readClassesTraced hat _ _ _ hinput).bind_any fun symbols => ?_
  refine .lift_bind_any fun exported => ?_
  split
  · exact (Follows.throw _).bind_any fun _ => .pure _
  · exact .pure _

end Symbol

/-! ## Regions and dictionaries -/

section

variable (settings : DecodeSettings) (data : Bytes)

theorem Generic.traces_decodeRegionTraced (openLength : Bool) {P : Event → Prop}
    (h : ∀ width height, width * height ≤ settings.maxPixelCount → P (.made width height)) :
    Traces P (decodeRegionTraced settings data openLength)
      (decodeRegion settings data openLength) := by
  refine .lift_bind fun ⟨⟨info, params⟩, r⟩ _ => ?_
  dsimp -zeta only
  extract_lets decodeTraced decodeRest
  have hrest : ∀ split, Traces P (decodeTraced split) (decodeRest split) := fun _ =>
    (Bitmap.traces_createTraced (h _ _)).bind fun _ _ => .lift_bind fun _ _ => .pure _
  split
  · exact .lift_bind fun split _ => hrest split
  · exact hrest (info, r.tail)

/-- The reference of a region has the place of the region. -/
theorem Refinement.traces_decodeRegionTraced {reference : Bitmap}
    (hreference : reference.Within settings.maxPixelCount) :
    Traces (fun e => e.Sound settings.maxPixelCount ∧ e.Still)
      (decodeRegionTraced settings data reference) (decodeRegion settings data reference) := by
  refine .lift_bind fun ⟨⟨info, params⟩, r⟩ hheader => ?_
  obtain ⟨hat, hdx, hdy⟩ := gives_readHeader settings _ _ _ hheader
  dsimp only at hat hdx hdy
  refine .guard fun _ => ?_
  refine (Bitmap.traces_createTraced fun h => ⟨h, trivial⟩).bind fun bitmap hbitmap => ?_
  have haccepted : Refining.Accepted settings.maxPixelCount ⟨params, reference, bitmap⟩ := by
    refine ⟨?_, ?_, hat, Bitmap.within_create hbitmap, hreference⟩
    · exact hdx ▸ (by decide : FitsSigned 0)
    · exact hdy ▸ (by decide : FitsSigned 0)
  have hevent (decoder contexts) :
      (Event.refined ⟨params, reference, bitmap⟩
        (Refining.decodeWatched ⟨params, reference, bitmap⟩ decoder contexts).2).Sound
          settings.maxPixelCount ∧ params.dx = 0 ∧ params.dy = 0 :=
    ⟨haccepted.sound decoder contexts, hdx, hdy⟩
  exact (Refining.traces_decodeTraced hevent _ _).bind fun _ _ => .pure _

theorem Text.traces_decodeRegionTraced {symbols : Array Bitmap}
    (hsymbols : Symbol.AllWithin settings.maxPixelCount symbols) (tables : List Huffman.Table) :
    Traces (Event.Sound settings.maxPixelCount) (decodeRegionTraced settings data symbols tables)
      (decodeRegion settings data symbols tables) := by
  refine .lift_bind fun ⟨header, r⟩ hheader => (Bitmap.traces_createTraced id).bind fun blank _ => ?_
  refine .lift_bind fun source _ => Traces.bind ?_ fun _ _ => .pure _
  have hat := Header.gives_read settings _ _ _ hheader
  rw [← maxPixelCount_of_readHeader hheader] at hsymbols ⊢
  exact follows_decodeInstancesTraced hat hsymbols _ _ source

theorem Symbol.traces_decodeTraced {input : Array Bitmap}
    (hinput : AllWithin settings.maxPixelCount input) (tables : List Huffman.Table)
    (last : Option (Nat × SymbolDictionary)) :
    Traces (Event.Sound settings.maxPixelCount) (decodeTraced settings data input tables last)
      (decode settings data input tables last) := by
  refine .lift_bind fun ⟨header, r⟩ hheader => .lift_bind fun total _ => ?_
  refine .lift_bind fun source _ => Traces.bind ?_ fun _ _ => .pure _
  have hat := Header.gives_read settings _ _ _ hheader
  exact follows_readSymbolsTraced header hat hinput _ source

end
end Bilevel

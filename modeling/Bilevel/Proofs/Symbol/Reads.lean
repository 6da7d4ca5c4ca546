import Bilevel.Proofs.Bitmap.Pixels
import Bilevel.Proofs.Steps
import Bilevel.Symbol.Dictionary
import Bilevel.Text.Region

/-!
# What symbol decoding reads

Text regions and symbol dictionaries take all that they decode from a source, and they look at the
source by a few kinds of reads only. What holds of every read holds of every decoding that is put
together from reads, so it is enough to know once what instances and symbols are put together from.

## Main definitions

* `Bitmap.Within` — a bitmap has at most so many pixels.
* `Source.Read` — a read, with what it needs to know.
* `MadeOf` — a decoding that is put together from reads of some kind.
* `Source.Read.Suits` — a read of pixels that are coded with given templates, into a bitmap of at
  most so many pixels.

## Main results

* `Text.madeOf_decodeInstances` — all instances of a text region.
* `Symbol.madeOf_readSymbols` — all symbols of a dictionary.
-/

namespace Bilevel

/-- The bitmap has at most `maxPixels` pixels. -/
def Bitmap.Within (maxPixels : Nat) (b : Bitmap) : Prop := b.width * b.height ≤ maxPixels

theorem Bitmap.within_create {maxPixels width height : Nat} {b : Bitmap}
    (h : create maxPixels width height = .ok b) : b.Within maxPixels := by
  obtain ⟨hle, rfl⟩ := create_eq_ok.mp h
  exact hle

/-- One read from a source. -/
inductive Source.Read : Type → Type
  | value (q : Quantity) : Read (Option Int)
  | across (logStrips : Nat) : Read Int
  | symbolId : Read Nat
  | refined : Read Bool
  | refinementData : Read (Option Bytes)
  | refinement (data : Option Bytes) (params : RefinementParams) (reference bitmap : Bitmap) :
    Read Bitmap
  | plain (settings : DecodeSettings) (style : Symbol.Style) (width height : Nat) : Read Bitmap
  | collective (settings : DecodeSettings) (width height : Nat) : Read Bitmap

namespace Source.Read

def run {α : Type} : Read α → Decoding α
  | value q => readValue q
  | across logStrips => readAcross logStrips
  | symbolId => readSymbolId
  | refined => readRefined
  | refinementData => readRefinementData
  | refinement data params reference bitmap => readRefinement data params reference bitmap
  | plain settings style width height => Symbol.readPlain settings style width height
  | collective settings width height => Symbol.readCollective settings width height

/-- Pixels are read with the given templates, and a bitmap into which they are read has at most
`maxPixels` of them. Without a template for symbols of their own there are none. -/
def Suits (maxPixels : Nat) (generic : Option Template) (refinement : RefinementTemplate) :
    (α : Type) → Read α → Prop
  | _, .refinement _ params _ bitmap => params.template = refinement ∧ bitmap.Within maxPixels
  | _, .plain settings style _ _ =>
    generic = some style.template ∧ settings.maxPixelCount = maxPixels
  | _, .collective settings _ _ => settings.maxPixelCount = maxPixels
  | _, _ => True

end Source.Read

theorem Source.readValue_of_readNumber {q : Quantity} {n : Int} {s s' : Source}
    (h : readNumber q s = .ok (n, s')) : readValue q s = .ok (some n, s') := by
  obtain ⟨value, s₁, hvalue, h⟩ := run_bind_eq_ok.mp h
  cases value with
  | none => cases h
  | some n =>
    cases h
    exact hvalue

/-- The pixels of a refinement are decoded among the decisions of a source, or from bytes of their
own, which leaves the source alone. -/
theorem Source.readRefinement_eq_ok {data : Option Bytes} {params : RefinementParams}
    {reference bitmap result : Bitmap} {s s' : Source}
    (h : readRefinement data params reference bitmap s = .ok (result, s')) :
    (∃ decoder contexts learnt decoder', s = decisions decoder contexts ∧
      s' = decisions decoder' { contexts with refinement := learnt } ∧
      Refinement.decodeBitmap params reference decoder contexts.refinement bitmap =
        .ok (result, learnt, decoder')) ∨
    s' = s ∧ ∃ bytes learnt decoder, Refinement.decodeBitmap params reference
      (Mq.Decoder.ofBytes bytes) params.freshContexts bitmap = .ok (result, learnt, decoder) := by
  cases data with
  | some data =>
    obtain ⟨⟨_, _, _⟩, hdecode, h⟩ := bind_eq_ok.mp h
    cases h
    exact .inr ⟨rfl, data, _, _, hdecode⟩
  | none =>
    cases s with
    | decisions decoder contexts =>
      obtain ⟨⟨_, _, _⟩, hdecode, h⟩ := bind_eq_ok.mp h
      cases h
      exact .inl ⟨decoder, contexts, _, _, rfl, rfl, hdecode⟩
    | codes reader tables ids =>
      obtain ⟨⟨_, _, _⟩, hdecode, h⟩ := bind_eq_ok.mp h
      cases h
      exact .inr ⟨rfl, #[], _, _, hdecode⟩

/-- A decoding that is put together from reads that are allowed, and from steps that don't look at
the source. -/
inductive MadeOf (allowed : (α : Type) → Source.Read α → Prop) : {α : Type} → Decoding α → Prop
  | read {α : Type} (q : Source.Read α) (h : allowed α q) : MadeOf allowed q.run
  | lift {α : Type} (x : Except DecodeError α) : MadeOf allowed (liftM x : Decoding α)
  | lift_bind {α β : Type} (x : Except DecodeError α) {f : α → Decoding β}
    (hf : ∀ a, x = .ok a → MadeOf allowed (f a)) :
    MadeOf allowed ((liftM x : Decoding α) >>= f)
  | bind {α β : Type} {m : Decoding α} {f : α → Decoding β} (hm : MadeOf allowed m)
    (hf : ∀ a, MadeOf allowed (f a)) : MadeOf allowed (m >>= f)
  | branch {α : Type} (style : Symbol.Style) {m m' : Decoding α} (hm : MadeOf allowed m)
    (hm' : MadeOf allowed m') :
    MadeOf allowed (do if Symbol.collects style (← get) then m else m')

namespace MadeOf

variable {allowed : (α : Type) → Source.Read α → Prop} {α β : Type}

theorem pure (a : α) : MadeOf allowed (pure a : Decoding α) := lift (.ok a)

theorem throw (e : DecodeError) : MadeOf allowed (throw e : Decoding α) := lift (.error e)

theorem readNumber (q : Quantity) (h : allowed _ (.value q)) :
    MadeOf allowed (Source.readNumber q) := by
  refine bind (read (.value q) h) fun value => ?_
  cases value with
  | none => exact throw _
  | some n => exact pure n

end MadeOf

open MadeOf

/-! ## Instances -/

namespace Text

/-- The reads of an instance. -/
abbrev Params.Reads (params : Params) (generic : Option Template) :
    (α : Type) → Source.Read α → Prop :=
  Source.Read.Suits params.maxPixelCount generic params.style.template

variable (generic : Option Template) (params : Params) (symbols : Array Bitmap)

theorem madeOf_readStripDistance :
    MadeOf (params.Reads generic) (Cursor.readStripDistance params) :=
  bind (readNumber .deltaStrip trivial) fun _ => lift _

theorem madeOf_start :
    MadeOf (params.Reads generic) (Cursor.start params) :=
  bind (madeOf_readStripDistance generic params) fun _ => lift_bind _ fun _ _ => pure _

theorem madeOf_nextStrip (cursor : Cursor) :
    MadeOf (params.Reads generic) (cursor.nextStrip params) :=
  bind (madeOf_readStripDistance generic params) fun _ => lift_bind _ fun _ _ =>
    bind (readNumber .firstInStrip trivial) fun _ => lift_bind _ fun _ _ => pure _

theorem madeOf_next (cursor : Cursor) :
    MadeOf (params.Reads generic) (cursor.next params) := by
  unfold Cursor.next
  cases cursor.last with
  | none => exact madeOf_nextStrip generic params cursor
  | some last =>
    refine bind (read (.value .deltaInStrip) trivial) fun value => ?_
    cases value with
    | none => exact madeOf_nextStrip generic params cursor
    | some distance => exact lift_bind _ fun _ _ => pure _

theorem madeOf_finish (cursor : Cursor) :
    MadeOf (params.Reads generic) (cursor.finish params) := by
  unfold Cursor.finish
  cases cursor.last with
  | none => exact pure ()
  | some last =>
    refine bind (read (.value .deltaInStrip) trivial) fun value => ?_
    cases value with
    | none => exact pure ()
    | some distance => exact lift_bind _ fun _ _ => throw _

theorem madeOf_readRefinedInstance (symbol : Bitmap) :
    MadeOf (params.Reads generic)
      (readRefinedInstance params symbol) := by
  refine bind (readNumber .refinedWidth trivial) fun deltaWidth => ?_
  refine bind (readNumber .refinedHeight trivial) fun deltaHeight => ?_
  refine bind (readNumber .refinedX trivial) fun deltaX => ?_
  refine bind (readNumber .refinedY trivial) fun deltaY => ?_
  refine lift_bind _ fun width _ => lift_bind _ fun height _ => ?_
  refine lift_bind _ fun dx _ => lift_bind _ fun dy _ => lift_bind _ fun bitmap hbitmap => ?_
  refine bind (read .refinementData trivial) fun data => ?_
  exact read (.refinement data (params.style.params dx dy) symbol bitmap)
    ⟨rfl, Bitmap.within_create hbitmap⟩

theorem madeOf_readInstance (symbol : Bitmap) :
    MadeOf (params.Reads generic) (readInstance params symbol) := by
  unfold readInstance
  split
  · refine bind (read .refined trivial) fun refined => ?_
    cases refined with
    | true => exact madeOf_readRefinedInstance generic params symbol
    | false => exact pure symbol
  · exact pure symbol

theorem madeOf_readInstances (count : Nat) (cursor : Cursor) (region : Bitmap)
    (placed : Array Placement) :
    MadeOf (params.Reads generic)
      (readInstances params symbols count cursor region placed) := by
  induction count generalizing cursor region placed with
  | zero => exact bind (madeOf_finish generic params cursor) fun _ => pure _
  | succ count ih =>
    rw [readInstances]
    refine bind (madeOf_next generic params cursor) fun ⟨cursor, s⟩ => ?_
    dsimp -zeta only
    extract_lets placeNext
    have hnext : ∀ across,
        MadeOf (params.Reads generic) (placeNext across) := by
      intro across
      refine lift_bind _ fun t _ => bind (read .symbolId trivial) fun id => ?_
      cases symbols[id]? with
      | none => exact throw _
      | some symbol =>
        refine bind (madeOf_readInstance generic params symbol) fun bitmap => ?_
        exact lift_bind _ fun ⟨placement, last⟩ _ => ih _ _ _
    split
    · exact bind (pure 0) hnext
    · exact bind (read (.across params.logStrips) trivial) hnext

/-- All instances of a text region are put together from reads. -/
theorem madeOf_decodeInstances (count : Nat) (region : Bitmap) :
    MadeOf (params.Reads generic)
      (decodeInstances params symbols count region) :=
  bind (madeOf_start generic params) fun cursor =>
    madeOf_readInstances generic params symbols count cursor region #[]

end Text

/-! ## Symbols -/

namespace Symbol

/-- The reads of a symbol. -/
abbrev Style.Reads (style : Style) (settings : DecodeSettings) :
    (α : Type) → Source.Read α → Prop :=
  Source.Read.Suits settings.maxPixelCount (some style.template) style.refinement.template

variable (settings : DecodeSettings) (style : Style)

theorem madeOf_readRefined (symbols : Array Bitmap) {bitmap : Bitmap}
    (hbitmap : bitmap.Within settings.maxPixelCount) :
    MadeOf (style.Reads settings)
      (readRefined style symbols bitmap) := by
  refine bind (read .symbolId trivial) fun id => ?_
  refine bind (readNumber .refinedX trivial) fun dx => ?_
  refine bind (readNumber .refinedY trivial) fun dy => ?_
  refine bind (read .refinementData trivial) fun data => ?_
  cases symbols[id]? with
  | none => exact throw _
  | some reference =>
    exact read (.refinement data (style.refinement.params dx dy) reference bitmap) ⟨rfl, hbitmap⟩

theorem madeOf_readAggregate (symbols : Array Bitmap) (width height : Nat) :
    MadeOf (style.Reads settings)
      (readAggregate settings style symbols width height) := by
  refine bind (readNumber .aggregateCount trivial) fun count => ?_
  extract_lets compose
  have hcompose : ∀ u,
      MadeOf (style.Reads settings) (compose u) := by
    intro _
    refine lift_bind _ fun bitmap hbitmap => ?_
    split
    · exact madeOf_readRefined settings style symbols (Bitmap.within_create hbitmap)
    · have hinstances := Text.madeOf_decodeInstances (some style.template)
        (style.instances settings) symbols count.toNat bitmap
      exact bind hinstances fun _ => pure _
  split
  · exact bind (throw _) hcompose
  · exact hcompose ()

theorem madeOf_readClass (room : Nat) (c : Class) (symbols : Array Bitmap) :
    MadeOf (style.Reads settings)
      (readClass settings style room c symbols) := by
  induction room generalizing c symbols with
  | zero =>
    refine bind (read (.value .deltaWidth) trivial) fun value => ?_
    cases value with
    | none => exact pure _
    | some delta => exact throw _
  | succ room ih =>
    refine bind (read (.value .deltaWidth) trivial) fun value => ?_
    cases value with
    | none => exact pure _
    | some delta =>
      refine lift_bind _ fun width _ => lift_bind _ fun total _ => ?_
      refine branch style (ih _ _) ?_
      cases style.aggregates with
      | true => exact bind (madeOf_readAggregate settings style symbols _ _) fun _ => ih _ _
      | false => exact bind (read (.plain settings style width c.height) ⟨rfl, rfl⟩) fun _ => ih _ _

theorem madeOf_readClasses (total limit height : Nat) (symbols : Array Bitmap) :
    MadeOf (style.Reads settings)
      (readClasses settings style total limit height symbols) := by
  induction limit generalizing height symbols with
  | zero => exact throw _
  | succ limit ih =>
    rw [readClasses]
    split
    · exact pure _
    · refine bind (readNumber .deltaHeight trivial) fun delta => lift_bind _ fun height _ => ?_
      refine bind (madeOf_readClass settings style _ _ _) fun ⟨c, symbols⟩ => ?_
      refine branch style ?_ (ih _ _)
      exact bind (read (.collective settings c.total height) rfl) fun collective =>
        lift_bind _ fun _ _ => ih _ _

theorem madeOf_readExported (maxPixels : Nat) (generic : Option Template)
    (refinement : RefinementTemplate) (symbols : Array Bitmap) (limit : Nat) (exporting : Bool)
    (index : Nat) (exported : Array Bitmap) :
    MadeOf (Source.Read.Suits maxPixels generic refinement)
      (readExported symbols limit exporting index exported) := by
  induction limit generalizing exporting index exported with
  | zero => exact throw _
  | succ limit ih =>
    rw [readExported]
    split
    · exact pure _
    · exact bind (readNumber .exportRun trivial) fun run => lift_bind _ fun ⟨_, _⟩ _ => ih _ _ _

/-- All symbols of a dictionary are put together from reads. -/
theorem madeOf_readSymbols (header : Header) (input : Array Bitmap) (limit : Nat) :
    MadeOf (header.style.Reads settings)
      (readSymbols settings header input limit) := by
  refine bind (madeOf_readClasses settings header.style _ _ _ _) fun symbols => ?_
  refine bind (madeOf_readExported _ _ _ symbols _ _ _ _) fun exported => ?_
  split
  · exact bind (throw _) fun _ => pure _
  · exact pure _

end Symbol
end Bilevel

import Bilevel.Proofs.Region.Checked
import Bilevel.Proofs.Symbol.Progress

/-!
# Symbols with checked lookups

A source of decisions has contexts for every kind of number, for symbol numbers and for the pixels
of symbols. How many there have to be depends on the length of the symbol numbers and on the
templates of the pixels, which are given when the source is made and don't change any more. Every
read finds the contexts that it looks up, and leaves as many behind as there were, so that the next
one does.

What a dictionary has learnt from pixels is handed on only to a dictionary with the same templates,
so the contexts that are taken over are as many as those that would have been fresh.

## Main definitions

* `Source.Fits` — there are as many contexts as the templates and the symbol numbers need.
* `Source.Read.run?` — a read with checked lookups.
* `Checked` — no lookup of a decoding is out of bounds, from its first read to the last one that it
  comes to, whether it succeeds or not.

## Main results

* `Source.Read.run?_eq` — a read with checked lookups gives what the read does.
* `MadeOf.checked` — so a decoding that is put together from reads is checked.
* `Text.fits_sourceOf`, `Symbol.fits_sourceOf` — text regions and dictionaries have the contexts
  that they need.
-/

namespace Bilevel

open Mq

/-- There are as many contexts as are needed for numbers, for symbol numbers, and for pixels with
the given templates. -/
structure SymbolContexts.Fit (generic : Option Template) (refinement : RefinementTemplate)
    (contexts : SymbolContexts) : Prop where
  count : contexts.numbers.size = Quantity.count
  number : ∀ known ∈ contexts.numbers, known.size = 512
  ids : contexts.ids.size = 1 <<< contexts.idLength
  generic : ∀ template ∈ generic, contexts.generic.size = 1 <<< template.contextBits
  refinement : contexts.refinement.size = 1 <<< refinement.contextBits

namespace SymbolContexts

variable {generic : Option Template} {refinement : RefinementTemplate} {contexts : SymbolContexts}

/-- Fresh contexts are as many as are needed, with others that are. -/
theorem fit_fresh (idLength : Nat) {pixels refined : Contexts}
    (hpixels : ∀ template ∈ generic, pixels.size = 1 <<< template.contextBits)
    (hrefined : refined.size = 1 <<< refinement.contextBits) :
    (fresh idLength pixels refined).Fit generic refinement where
  count := Array.size_replicate
  number := by
    intro known hknown
    obtain rfl := Array.eq_of_mem_replicate hknown
    exact Contexts.size_fresh 9
  ids := Contexts.size_fresh idLength
  generic := hpixels
  refinement := hrefined

namespace Fit

variable (h : contexts.Fit generic refinement)

include h

theorem getElem? (q : Quantity) : contexts.numbers[q.index]? = some (contexts.of q) := by
  have hlt : q.index < contexts.numbers.size := h.count ▸ q.index_lt
  simp [SymbolContexts.of, hlt]

theorem size_of (q : Quantity) : (contexts.of q).size = 512 :=
  h.number _ (Array.mem_of_getElem? (h.getElem? q))

theorem put {q : Quantity} {learnt : Contexts} (hlearnt : learnt.size = 512) :
    (contexts.put q learnt).Fit generic refinement where
  count := (Array.size_setIfInBounds ..).trans h.count
  number := by
    intro known hknown
    rcases Array.mem_or_eq_of_mem_setIfInBounds hknown with hknown | rfl
    · exact h.number known hknown
    · exact hlearnt
  ids := h.ids
  generic := h.generic
  refinement := h.refinement

end Fit
end SymbolContexts

namespace Source

/-- The source has as many contexts as are needed, if it is one of decisions. -/
def Fits (generic : Option Template) (refinement : RefinementTemplate) : Source → Prop
  | decisions _ contexts => contexts.Fit generic refinement
  | codes .. => True

/-! ## Checked reads -/

/-- Read a number or the out-of-band value, with checked lookups. -/
def readValue? (q : Quantity) : Source → Option (Except DecodeError (Option Int × Source))
  | decisions decoder contexts => do
    let decoded ← Integer.decode? decoder (← contexts.numbers[q.index]?)
    return do
      let (value, learnt, decoder) ← decoded
      return (value, decisions decoder (contexts.put q learnt))
  | s@(codes ..) => some (readValue q s)

/-- Read a number with checked lookups. -/
def readNumber? (q : Quantity) (s : Source) : Option (Except DecodeError (Int × Source)) :=
  (readValue? q s).map (· >>= fun
    | (some n, s) => return (n, s)
    | (none, _) => throw (.huffman .unexpectedOob))

def readAcross? (logStrips : Nat) : Source → Option (Except DecodeError (Int × Source))
  | s@(decisions ..) => readNumber? .acrossStrip s
  | s@(codes ..) => some (readAcross logStrips s)

def readSymbolId? : Source → Option (Except DecodeError (Nat × Source))
  | decisions decoder contexts => do
    let decoded ← SymbolId.decode? decoder contexts.ids contexts.idLength
    return do
      let (id, learnt, decoder) ← decoded
      return (id, decisions decoder { contexts with ids := learnt })
  | s@(codes ..) => some (readSymbolId s)

def readRefined? : Source → Option (Except DecodeError (Bool × Source))
  | s@(decisions ..) => (readNumber? .refined s).map (· >>= fun (n, s) => return (n != 0, s))
  | s@(codes ..) => some (readRefined s)

/-- Decode the pixels of a refinement with checked access. -/
def readRefinement? (data : Option Bytes) (params : RefinementParams) (reference bitmap : Bitmap)
    (s : Source) : Option (Except DecodeError (Bitmap × Source)) :=
  match data, s with
  | none, decisions decoder contexts => do
    let decoded ← Refinement.decodeBitmap? params reference decoder contexts.refinement bitmap
    return do
      let (bitmap, learnt, decoder) ← decoded
      return (bitmap, decisions decoder { contexts with refinement := learnt })
  | data, s => do
    let decoded ← Refinement.decodeBitmap? params reference (Decoder.ofBytes (data.getD #[]))
      params.freshContexts bitmap
    return do
      let (bitmap, _, _) ← decoded
      return (bitmap, s)

/-- Decode the pixels of a symbol of its own with checked access. -/
def readPlain? (settings : DecodeSettings) (style : Symbol.Style) (width height : Nat)
    (s : Source) : Option (Except DecodeError (Bitmap × Source)) :=
  match Bitmap.create settings.maxPixelCount width height with
  | .error e => some (.error e)
  | .ok bitmap =>
    match s with
    | decisions decoder contexts => do
      let decoded ← Generic.decodeBitmap? style.generic decoder contexts.generic bitmap
      return do
        let (bitmap, learnt, decoder) ← decoded
        return (bitmap, decisions decoder { contexts with generic := learnt })
    | codes .. => some (.ok (bitmap, s))

/-- Read from a source, with every lookup of a context checked. What is read from bytes has no
contexts. -/
def Read.run? : {α : Type} → Read α → Source → Option (Except DecodeError (α × Source))
  | _, value q => readValue? q
  | _, across logStrips => readAcross? logStrips
  | _, symbolId => readSymbolId?
  | _, refined => readRefined?
  | _, refinementData => fun s => some (readRefinementData s)
  | _, refinement data params reference bitmap => readRefinement? data params reference bitmap
  | _, plain settings style width height => readPlain? settings style width height
  | _, collective settings width height => fun s =>
    some (Symbol.readCollective settings width height s)

variable {generic : Option Template} {refinement : RefinementTemplate} {s s' : Source}

theorem readValue?_eq (hs : s.Fits generic refinement) (q : Quantity) :
    readValue? q s = some (readValue q s) := by
  cases s with
  | codes reader tables ids => rfl
  | decisions decoder contexts =>
    rw [readValue?, hs.getElem? q]
    dsimp only [Option.bind_eq_bind, Option.bind_some]
    rw [Integer.decode?_eq (hs.size_of q)]
    rfl

theorem readNumber?_eq (hs : s.Fits generic refinement) (q : Quantity) :
    readNumber? q s = some (readNumber q s) := by
  rw [readNumber?, readValue?_eq hs]
  refine congrArg some (congrArg (readValue q s >>= ·) (funext fun ⟨value, s⟩ => ?_))
  cases value <;> rfl

theorem readSymbolId?_eq (hs : s.Fits generic refinement) :
    readSymbolId? s = some (readSymbolId s) := by
  cases s with
  | codes reader tables ids => rfl
  | decisions decoder contexts =>
    rw [readSymbolId?, SymbolId.decode?_eq hs.ids]
    rfl

theorem readRefinement?_eq (hs : s.Fits generic refinement) {data : Option Bytes}
    {params : RefinementParams} (hparams : params.template = refinement)
    (reference bitmap : Bitmap) : readRefinement? data params reference bitmap s =
      some (readRefinement data params reference bitmap s) := by
  subst hparams
  have hfresh : params.freshContexts.size = 1 <<< params.template.contextBits :=
    Contexts.size_fresh _
  cases data with
  | some data =>
    unfold readRefinement? readRefinement
    dsimp only
    rw [Refinement.decodeBitmap?_eq hfresh]
    rfl
  | none =>
    cases s with
    | decisions decoder contexts =>
      unfold readRefinement? readRefinement
      dsimp only
      rw [Refinement.decodeBitmap?_eq hs.refinement]
      rfl
    | codes reader tables ids =>
      unfold readRefinement? readRefinement
      dsimp only
      rw [Refinement.decodeBitmap?_eq hfresh]
      rfl

theorem readPlain?_eq {style : Symbol.Style} (hs : s.Fits (some style.template) refinement)
    (settings : DecodeSettings) (width height : Nat) :
    readPlain? settings style width height s =
      some (Symbol.readPlain settings style width height s) := by
  unfold readPlain? Symbol.readPlain
  cases Bitmap.create settings.maxPixelCount width height with
  | error e => rfl
  | ok bitmap =>
    cases s with
    | codes reader tables ids => rfl
    | decisions decoder contexts =>
      dsimp only
      rw [Generic.decodeBitmap?_eq (hs.generic style.template rfl)]
      rfl

/-- A read with checked lookups gives what the read does. -/
theorem Read.run?_eq {α : Type} {q : Read α} {maxPixels : Nat}
    (hq : Suits maxPixels generic refinement α q) (hs : s.Fits generic refinement) :
    q.run? s = some (q.run s) := by
  cases q with
  | value q => exact readValue?_eq hs q
  | across logStrips =>
    cases s with
    | codes reader tables ids => rfl
    | decisions decoder contexts => exact readNumber?_eq hs .acrossStrip
  | symbolId => exact readSymbolId?_eq hs
  | refined =>
    cases s with
    | codes reader tables ids => rfl
    | decisions decoder contexts =>
      rw [run?, readRefined?, readNumber?_eq hs .refined]
      rfl
  | refinementData => rfl
  | refinement data params reference bitmap => exact readRefinement?_eq hs hq.1 reference bitmap
  | plain settings style width height =>
    obtain ⟨rfl, -⟩ := hq
    exact readPlain?_eq hs settings width height
  | collective settings width height => rfl

/-! ## What reads leave behind -/

theorem fits_readValue {decoder : Decoder} {contexts : SymbolContexts}
    (hs : contexts.Fit generic refinement) {q : Quantity} {value : Option Int}
    (h : readValue q (decisions decoder contexts) = .ok (value, s')) :
    s'.Fits generic refinement := by
  obtain ⟨⟨_, _, _⟩, hdecode, h⟩ := bind_eq_ok.mp h
  cases h
  exact hs.put (Integer.size_of_decode (hs.size_of q) hdecode)

/-- A read of decisions leaves as many contexts behind as there were. -/
theorem Read.fits_decisions {α : Type} (q : Read α) {decoder : Decoder} {contexts : SymbolContexts}
    (hs : contexts.Fit generic refinement) {a : α}
    (h : q.run (decisions decoder contexts) = .ok (a, s')) : s'.Fits generic refinement := by
  cases q with
  | value q => exact fits_readValue hs h
  | across logStrips => exact fits_readValue hs (readValue_of_readNumber h)
  | symbolId =>
    obtain ⟨⟨_, _, _⟩, hdecode, h⟩ := bind_eq_ok.mp h
    cases h
    exact { hs with ids := (SymbolId.size_of_decode hdecode).trans hs.ids }
  | refined =>
    obtain ⟨⟨_, _⟩, hnumber, h⟩ := bind_eq_ok.mp h
    cases h
    exact fits_readValue hs (readValue_of_readNumber hnumber)
  | refinementData =>
    cases h
    exact hs
  | refinement data params reference bitmap =>
    rcases readRefinement_eq_ok h with ⟨_, _, _, _, heq, rfl, hdecode⟩ | ⟨rfl, -⟩
    · cases heq
      exact { hs with refinement := (Refinement.size_of_decodeRows hdecode).trans hs.refinement }
    · exact hs
  | plain settings style width height =>
    obtain ⟨blank, -, h⟩ := bind_eq_ok.mp h
    obtain ⟨⟨_, _, _⟩, hdecode, h⟩ := bind_eq_ok.mp h
    cases h
    exact { hs with
      generic := fun template ht =>
        (Generic.size_of_decodeRows hdecode).trans (hs.generic template ht) }
  | collective settings width height =>
    cases h
    exact hs

/-- A read leaves as many contexts behind as there were, and none if there were none. -/
theorem Read.fits_run {α : Type} (q : Read α) (hs : s.Fits generic refinement) {a : α}
    (h : q.run s = .ok (a, s')) : s'.Fits generic refinement := by
  cases s with
  | decisions decoder contexts => exact q.fits_decisions hs h
  | codes reader tables ids =>
    have hspends := q.spends_codes h
    cases s' with
    | decisions decoder contexts => exact absurd hspends id
    | codes reader' tables' ids' => trivial

end Source

/-! ## Decodings -/

/-- Every read that a decoding comes to from a source gives with checked lookups what it gives
without. -/
inductive Checked : {α : Type} → Decoding α → Source → Prop
  | read {α : Type} (q : Source.Read α) {s : Source} (h : q.run? s = some (q.run s)) :
    Checked q.run s
  | lift {α : Type} (x : Except DecodeError α) (s : Source) : Checked (liftM x : Decoding α) s
  | bind {α β : Type} {m : Decoding α} {f : α → Decoding β} {s : Source} (hm : Checked m s)
    (hf : ∀ a s', m s = .ok (a, s') → Checked (f a) s') : Checked (m >>= f) s
  | branch {α : Type} {style : Symbol.Style} {m m' : Decoding α} {s : Source}
    (h : Checked (if Symbol.collects style s then m else m') s) :
    Checked (do if Symbol.collects style (← get) then m else m') s

variable {generic : Option Template} {refinement : RefinementTemplate} {maxPixels : Nat}

/-- A decoding that is put together from reads that suit its source is checked, and leaves as many
contexts behind as there were. -/
theorem MadeOf.checked {α : Type} {m : Decoding α}
    (h : MadeOf (Source.Read.Suits maxPixels generic refinement) m) {s : Source}
    (hs : s.Fits generic refinement) :
    Checked m s ∧ ∀ a s', m s = .ok (a, s') → s'.Fits generic refinement := by
  induction h generalizing s with
  | read q hq => exact ⟨.read q (Source.Read.run?_eq hq hs), fun a s' h => q.fits_run hs h⟩
  | lift x =>
    refine ⟨.lift x s, fun a s' h => ?_⟩
    obtain ⟨-, rfl⟩ := run_lift_eq_ok.mp h
    exact hs
  | lift_bind x hf ih =>
    refine ⟨.bind (.lift x s) fun a s' h => ?_, fun b s' h => ?_⟩
    · obtain ⟨hx, rfl⟩ := run_lift_eq_ok.mp h
      exact (ih a hx hs).1
    · obtain ⟨a, s₁, hlift, hnext⟩ := run_bind_eq_ok.mp h
      obtain ⟨hx, rfl⟩ := run_lift_eq_ok.mp hlift
      exact (ih a hx hs).2 b s' hnext
  | bind hm hf ihm ihf =>
    obtain ⟨hchecked, hfits⟩ := ihm hs
    refine ⟨.bind hchecked fun a s' h => (ihf a (hfits a s' h)).1, fun b s' h => ?_⟩
    obtain ⟨a, s₁, hfirst, h⟩ := run_bind_eq_ok.mp h
    exact (ihf a (hfits a s₁ hfirst)).2 b s' h
  | @branch _ style m m' hm hm' ihm ihm' =>
    have hbranch : ∀ b : Bool, Checked (if b then m else m') s ∧
        ∀ a s', (if b then m else m') s = .ok (a, s') → s'.Fits generic refinement := by
      intro b
      cases b with
      | true => exact ihm hs
      | false => exact ihm' hs
    exact ⟨.branch (hbranch _).1, (hbranch (Symbol.collects style s)).2⟩

/-! ## Text regions and dictionaries -/

/-- The source of a text region has the contexts that its instances need. -/
theorem Text.fits_sourceOf {header : Text.Header} {symbols : Nat} {tables : List Huffman.Table}
    {r : Reader} {s : Source} (h : Text.sourceOf header symbols tables r = .ok s) :
    s.Fits none header.params.style.template := by
  unfold Text.sourceOf at h
  split at h
  · obtain ⟨resolved, -, h⟩ := bind_eq_ok.mp h
    obtain ⟨⟨ids, r'⟩, -, h⟩ := bind_eq_ok.mp h
    cases h
    trivial
  · cases h
    exact SymbolContexts.fit_fresh _ (fun _ ht => absurd ht (Option.not_mem_none _))
      (Contexts.size_fresh _)

namespace Symbol

/-- What was learnt belongs to as many contexts as the templates need. -/
structure Learnt.Fit (learnt : Learnt) : Prop where
  generic : learnt.generic.size = 1 <<< learnt.style.template.contextBits
  refinement : learnt.refinement.size = 1 <<< learnt.style.refinement.template.contextBits

/-- A dictionary starts with as many contexts as it needs, also if they come from another one: it
takes them over only if its templates are the same. -/
theorem fit_startContexts {header : Header} {last : Option (Nat × SymbolDictionary)}
    (hlast : ∀ number dictionary, last = some (number, dictionary) →
      ∀ learnt ∈ dictionary.learnt, learnt.Fit)
    {learnt : Learnt} (h : header.startContexts last = .ok learnt) :
    learnt.Fit ∧ learnt.style = header.style := by
  unfold Header.startContexts at h
  dsimp only at h
  split at h
  · cases last with
    | none => cases h
    | some known =>
      obtain ⟨number, dictionary⟩ := known
      dsimp only at h
      cases hlearnt : dictionary.learnt with
      | none =>
        rw [hlearnt] at h
        cases h
      | some kept =>
        rw [hlearnt] at h
        dsimp only at h
        split at h
        · next heq =>
          obtain rfl := Except.ok.inj h
          exact ⟨hlast number dictionary rfl kept hlearnt, heq⟩
        · cases h
  · cases h
    exact ⟨⟨Contexts.size_fresh _, Contexts.size_fresh _⟩, rfl⟩

theorem fits_sourceOf {header : Header} {symbols : Nat} {tables : List Huffman.Table}
    {last : Option (Nat × SymbolDictionary)} {r : Reader} {s : Source}
    (hlast : ∀ number dictionary, last = some (number, dictionary) →
      ∀ learnt ∈ dictionary.learnt, learnt.Fit)
    (h : sourceOf header symbols tables last r = .ok s) :
    s.Fits (some header.style.template) header.style.refinement.template := by
  unfold sourceOf at h
  dsimp only at h
  split at h
  · obtain ⟨resolved, -, h⟩ := bind_eq_ok.mp h
    cases h
    trivial
  · obtain ⟨learnt, hlearnt, h⟩ := bind_eq_ok.mp h
    cases h
    obtain ⟨hfit, hstyle⟩ := fit_startContexts hlast hlearnt
    rw [← hstyle]
    exact SymbolContexts.fit_fresh _ (fun _ ht => Option.mem_some_iff.mp ht ▸ hfit.generic)
      hfit.refinement

theorem fit_learntFrom {style : Style} {s : Source}
    (hs : s.Fits (some style.template) style.refinement.template) {learnt : Learnt}
    (h : learntFrom style s = some learnt) : learnt.Fit := by
  cases s with
  | decisions decoder contexts =>
    cases h
    exact ⟨hs.generic _ rfl, hs.refinement⟩
  | codes reader tables ids => cases h

/-- What a decoded dictionary keeps fits its templates, if what it could take over did. -/
theorem fit_of_decode {settings : DecodeSettings} {data : Bytes} {input : Array Bitmap}
    {tables : List Huffman.Table} {last : Option (Nat × SymbolDictionary)}
    {dictionary : SymbolDictionary}
    (hlast : ∀ number dictionary, last = some (number, dictionary) →
      ∀ learnt ∈ dictionary.learnt, learnt.Fit)
    (h : decode settings data input tables last = .ok dictionary) :
    ∀ learnt ∈ dictionary.learnt, learnt.Fit := by
  obtain ⟨⟨header, r⟩, -, h⟩ := bind_eq_ok.mp h
  obtain ⟨total, -, h⟩ := bind_eq_ok.mp h
  obtain ⟨source, hsource, h⟩ := bind_eq_ok.mp h
  obtain ⟨⟨symbols, source'⟩, hread, h⟩ := bind_eq_ok.mp h
  cases h
  intro learnt hlearnt
  have hfits := (madeOf_readSymbols settings header input (valueLimit source)).checked
    (fits_sourceOf hlast hsource)
  dsimp only at hlearnt
  split at hlearnt
  · exact fit_learntFrom (hfits.2 _ _ hread) hlearnt
  · cases hlearnt

end Symbol
end Bilevel

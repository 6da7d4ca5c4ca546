import Bilevel.Proofs.Bitmap.Checked
import Bilevel.Proofs.Mq.Checked
import Bilevel.Proofs.Region.Size

/-!
# Regions with checked lookups

The contexts of pixels are numbers that are put together from the pixels of a template, and there
are as many contexts as there are numbers with so many bits. So it is enough that a template has as
many pixels as its contexts have bits, and that the contexts of its decisions about whole rows are
among them. Here the pixels of generic regions and refinements are decoded with every access
checked, those to contexts as well as those to the bytes of a bitmap.

## Main definitions

* `Generic.decodeBitmap?`, `Refinement.decodeBitmap?` — decoding with checked access.

## Main results

* `Generic.decodeBitmap?_eq`, `Refinement.decodeBitmap?_eq` — it gives what decoding does, if there
  are as many contexts as the template needs.
-/

namespace Bilevel

open Mq

/-! ## Pixels of a template -/

namespace Bitmap

variable (b : Bitmap)

def pixel? (x y : Int) : Option Bool :=
  if 0 ≤ x ∧ 0 ≤ y then b.get? x.toNat y.toNat else some false

theorem pixel?_eq (x y : Int) : b.pixel? x y = some (b.pixel x y) := by
  unfold pixel? pixel
  split
  · next h => simp [h, get?_eq]
  · next h =>
    rcases Classical.not_and_iff_not_or_not.mp h with h | h <;> simp [h]

/-- Bits behind those of `cx`, as long as each of them is there. -/
theorem foldlM_bits {colour? : AtPixel → Option Bool} {colour : AtPixel → Bool}
    (h : ∀ p, colour? p = some (colour p)) (pixels : List AtPixel) (cx : Nat) :
    pixels.foldlM (fun cx p => (colour? p).map fun bit => 2 * cx + bit.toNat) cx =
      some (pixels.foldl (fun cx p => 2 * cx + (colour p).toNat) cx) := by
  induction pixels generalizing cx with
  | nil => rfl
  | cons p pixels ih =>
    rw [List.foldlM_cons, h]
    exact ih _

/-- The number of pixels bounds the number that their bits form. -/
theorem foldl_bits_lt (colour : AtPixel → Bool) (pixels : List AtPixel) (cx : Nat) :
    pixels.foldl (fun cx p => 2 * cx + (colour p).toNat) cx < (cx + 1) * 2 ^ pixels.length := by
  induction pixels generalizing cx with
  | nil => simp
  | cons p pixels ih =>
    have hbit : (colour p).toNat ≤ 1 := Bool.toNat_le _
    calc (p :: pixels).foldl (fun cx p => 2 * cx + (colour p).toNat) cx
      _ = pixels.foldl (fun cx p => 2 * cx + (colour p).toNat) (2 * cx + (colour p).toNat) := rfl
      _ < (2 * cx + (colour p).toNat + 1) * 2 ^ pixels.length := ih _
      _ ≤ (2 * (cx + 1)) * 2 ^ pixels.length := Nat.mul_le_mul_right _ (by omega)
      _ = (cx + 1) * 2 ^ (p :: pixels).length := by
        rw [List.length_cons, Nat.pow_succ]
        ring

/-- The bits of the given pixels, if their bytes are there. -/
def gather? (x y : Int) (pixels : List AtPixel) (cx : Nat) : Option Nat :=
  pixels.foldlM (fun cx p => (b.pixel? (x + p.x) (y + p.y)).map fun bit => 2 * cx + bit.toNat) cx

theorem gather?_eq (x y : Int) (pixels : List AtPixel) (cx : Nat) :
    b.gather? x y pixels cx = some (b.gather x y pixels cx) :=
  foldlM_bits (fun p => b.pixel?_eq (x + p.x) (y + p.y)) pixels cx

theorem gather_lt (x y : Int) (pixels : List AtPixel) (cx : Nat) :
    b.gather x y pixels cx < (cx + 1) * 2 ^ pixels.length :=
  foldl_bits_lt _ pixels cx

/-- The bits of the given pixels, whose coordinates wrap around, if their bytes are there. -/
def gatherWrapped? (x y : Int) (pixels : List AtPixel) (cx : Nat) : Option Nat :=
  pixels.foldlM (fun cx p => (b.pixel? (wrapSigned (x + p.x)) (wrapSigned (y + p.y))).map
    fun bit => 2 * cx + bit.toNat) cx

theorem gatherWrapped?_eq (x y : Int) (pixels : List AtPixel) (cx : Nat) :
    b.gatherWrapped? x y pixels cx = some (b.gatherWrapped x y pixels cx) :=
  foldlM_bits (fun p => b.pixel?_eq (wrapSigned (x + p.x)) (wrapSigned (y + p.y))) pixels cx

theorem gatherWrapped_lt (x y : Int) (pixels : List AtPixel) (cx : Nat) :
    b.gatherWrapped x y pixels cx < (cx + 1) * 2 ^ pixels.length :=
  foldl_bits_lt _ pixels cx

end Bitmap

/-! ## Generic regions -/

theorem GenericParams.length_neighbours (params : GenericParams) :
    params.neighbours.length = params.template.contextBits := by
  unfold neighbours
  cases params.template <;> rfl

theorem Template.rowContext_lt (template : Template) :
    template.rowContext < 1 <<< template.contextBits := by
  cases template <;> decide

namespace Generic

def decodePixels? (neighbours : List AtPixel) (y : Nat) : (count x : Nat) →
    Decoder → Contexts → Bitmap → Option (Bitmap × Contexts × Decoder)
  | 0, _, decoder, contexts, bitmap => some (bitmap, contexts, decoder)
  | count + 1, x, decoder, contexts, bitmap => do
    let cx ← bitmap.gather? x y neighbours 0
    let (bit, contexts, decoder) ← decoder.decodeAt? contexts cx
    let bitmap ← if bit then bitmap.set? x y true else some bitmap
    decodePixels? neighbours y count (x + 1) decoder contexts bitmap

def decodeSkip? (params : GenericParams) (skip : Bool) (decoder : Decoder) (contexts : Contexts) :
    Option (Bool × Contexts × Decoder) :=
  if params.skipsRows then do
    let (change, contexts, decoder) ← decoder.decodeAt? contexts params.template.rowContext
    return (skip ^^ change, contexts, decoder)
  else some (false, contexts, decoder)

def decodeRow? (params : GenericParams) (y : Nat) (skip : Bool) (decoder : Decoder)
    (contexts : Contexts) (bitmap : Bitmap) : Option (Bool × Bitmap × Contexts × Decoder) := do
  let (skip, contexts, decoder) ← decodeSkip? params skip decoder contexts
  if skip then
    let bitmap ← if y = 0 then some bitmap else bitmap.copyRow? (y - 1) y
    return (skip, bitmap, contexts, decoder)
  else
    return (skip, ← decodePixels? params.neighbours y bitmap.width 0 decoder contexts bitmap)

def decodeRows? (params : GenericParams) : (count y : Nat) → (skip : Bool) →
    Decoder → Contexts → Bitmap → Option (Except DecodeError (Bitmap × Contexts × Decoder))
  | 0, _, _, decoder, contexts, bitmap => some (.ok (bitmap, contexts, decoder))
  | count + 1, y, skip, decoder, contexts, bitmap => do
    let (skip, bitmap, contexts, decoder) ← decodeRow? params y skip decoder contexts bitmap
    match decoder.checkData with
    | .ok _ => decodeRows? params count (y + 1) skip decoder contexts bitmap
    | .error e => some (.error e)

/-- Decode the pixels of a white bitmap with checked access. -/
def decodeBitmap? (params : GenericParams) (decoder : Decoder) (contexts : Contexts)
    (bitmap : Bitmap) : Option (Except DecodeError (Bitmap × Contexts × Decoder)) :=
  decodeRows? params bitmap.height 0 false decoder contexts bitmap

variable {params : GenericParams} {decoder : Decoder} {contexts : Contexts} {bitmap : Bitmap}

theorem size_decodePixels (neighbours : List AtPixel) (y count x : Nat) (decoder : Decoder)
    (contexts : Contexts) (bitmap : Bitmap) :
    (decodePixels neighbours y count x decoder contexts bitmap).2.1.size = contexts.size := by
  induction count generalizing x decoder contexts bitmap with
  | zero => rfl
  | succ count ih => exact (ih _ _ _ _).trans (Decoder.size_decodeAt ..)

theorem decodePixels?_eq {neighbours : List AtPixel} {y count x : Nat}
    (h : 2 ^ neighbours.length ≤ contexts.size) :
    decodePixels? neighbours y count x decoder contexts bitmap =
      some (decodePixels neighbours y count x decoder contexts bitmap) := by
  induction count generalizing x decoder contexts bitmap with
  | zero => rfl
  | succ count ih =>
    have hlt : bitmap.gather x y neighbours 0 < contexts.size := by
      have hgather := bitmap.gather_lt x y neighbours 0
      omega
    rw [decodePixels?, Bitmap.gather?_eq]
    dsimp only [Option.bind_eq_bind, Option.bind_some]
    rw [Decoder.decodeAt?_eq _ hlt]
    have hsize := Decoder.size_decodeAt decoder contexts (bitmap.gather x y neighbours 0)
    rw [decodePixels]
    generalize decoder.decodeAt contexts (bitmap.gather x y neighbours 0) = decided at hsize ⊢
    obtain ⟨bit, learnt, decoder'⟩ := decided
    dsimp only [Option.bind_eq_bind, Option.bind_some] at hsize ⊢
    cases bit with
    | true =>
      rw [if_pos rfl, if_pos rfl, Bitmap.set?_eq]
      exact ih (hsize ▸ h)
    | false => exact ih (hsize ▸ h)

theorem size_decodeSkip (params : GenericParams) (skip : Bool) (decoder : Decoder)
    (contexts : Contexts) : (decodeSkip params skip decoder contexts).2.1.size = contexts.size := by
  unfold decodeSkip
  split
  · exact Decoder.size_decodeAt ..
  · rfl

theorem decodeSkip?_eq {skip : Bool} (h : contexts.size = 1 <<< params.template.contextBits) :
    decodeSkip? params skip decoder contexts = some (decodeSkip params skip decoder contexts) := by
  unfold decodeSkip? decodeSkip
  split
  · rw [Decoder.decodeAt?_eq _ (h ▸ params.template.rowContext_lt)]
    rfl
  · rfl

theorem size_decodeRow (params : GenericParams) (y : Nat) (skip : Bool) (decoder : Decoder)
    (contexts : Contexts) (bitmap : Bitmap) :
    (decodeRow params y skip decoder contexts bitmap).2.2.1.size = contexts.size := by
  have hskip := size_decodeSkip params skip decoder contexts
  unfold decodeRow
  generalize decodeSkip params skip decoder contexts = start at hskip ⊢
  obtain ⟨skip, learnt, decoder⟩ := start
  cases skip with
  | true => exact hskip
  | false => exact (size_decodePixels ..).trans hskip

theorem decodeRow?_eq {y : Nat} {skip : Bool} (hy : y < bitmap.height)
    (h : contexts.size = 1 <<< params.template.contextBits) :
    decodeRow? params y skip decoder contexts bitmap =
      some (decodeRow params y skip decoder contexts bitmap) := by
  have hskip := (size_decodeSkip params skip decoder contexts).trans h
  rw [decodeRow?, decodeRow, decodeSkip?_eq h]
  generalize decodeSkip params skip decoder contexts = start at hskip ⊢
  obtain ⟨skip, learnt, decoder⟩ := start
  dsimp only [Option.bind_eq_bind, Option.bind_some] at hskip ⊢
  cases skip with
  | true =>
    rw [if_pos rfl, if_pos rfl]
    split
    · rfl
    · rw [Bitmap.copyRow?_eq _ (by omega) hy]
      rfl
  | false =>
    have hpixels : 2 ^ params.neighbours.length ≤ learnt.size := by
      rw [params.length_neighbours, hskip, Nat.one_shiftLeft]
    rw [if_neg Bool.false_ne_true, if_neg Bool.false_ne_true, decodePixels?_eq hpixels]
    rfl

/-- Decoding rows keeps the number of contexts. -/
theorem size_of_decodeRows {count y : Nat} {skip : Bool} {result : Bitmap × Contexts × Decoder}
    (h : decodeRows params count y skip decoder contexts bitmap = .ok result) :
    result.2.1.size = contexts.size := by
  induction count generalizing y skip decoder contexts bitmap with
  | zero =>
    cases h
    rfl
  | succ count ih =>
    rw [decodeRows_succ] at h
    obtain ⟨_, -, h⟩ := bind_eq_ok.mp h
    exact (ih h).trans (size_decodeRow ..)

theorem decodeRows?_eq {count y : Nat} {skip : Bool}
    (h : contexts.size = 1 <<< params.template.contextBits) (hrows : y + count = bitmap.height) :
    decodeRows? params count y skip decoder contexts bitmap =
      some (decodeRows params count y skip decoder contexts bitmap) := by
  induction count generalizing y skip decoder contexts bitmap with
  | zero => rfl
  | succ count ih =>
    have hsize := (size_decodeRow params y skip decoder contexts bitmap).trans h
    have hheight := (sameSize_decodeRow params y skip decoder contexts bitmap).height
    rw [decodeRows_succ, decodeRows?, decodeRow?_eq (by omega) h]
    generalize decodeRow params y skip decoder contexts bitmap = row at hsize hheight ⊢
    obtain ⟨skip, bitmap', contexts, decoder⟩ := row
    dsimp only [Option.bind_eq_bind, Option.bind_some] at hsize hheight ⊢
    cases decoder.checkData with
    | ok _ => exact ih hsize (by rw [hheight]; omega)
    | error e => rfl

theorem decodeBitmap?_eq (h : contexts.size = 1 <<< params.template.contextBits) :
    decodeBitmap? params decoder contexts bitmap =
      some (decodeBitmap params decoder contexts bitmap) :=
  decodeRows?_eq h (Nat.zero_add _)

end Generic

/-! ## Refinements -/

namespace RefinementParams

def context? (params : RefinementParams) (bitmap reference : Bitmap) (x y : Nat) : Option Nat := do
  let cx ← bitmap.gather? x y params.neighbours 0
  reference.gatherWrapped? (wrapSigned (x - params.dx)) (wrapSigned (y - params.dy))
    params.referenceNeighbours cx

theorem context?_eq (params : RefinementParams) (bitmap reference : Bitmap) (x y : Nat) :
    params.context? bitmap reference x y = some (params.context bitmap reference x y) := by
  rw [context?, Bitmap.gather?_eq]
  exact reference.gatherWrapped?_eq _ _ _ _

/-- The pixels of both bitmaps together are as many as the context has bits. -/
theorem context_lt (params : RefinementParams) (bitmap reference : Bitmap) (x y : Nat) :
    params.context bitmap reference x y < 1 <<< params.template.contextBits := by
  have hlength : params.neighbours.length + params.referenceNeighbours.length =
      params.template.contextBits := by
    unfold neighbours referenceNeighbours
    cases params.template <;> rfl
  have hcurrent := bitmap.gather_lt x y params.neighbours 0
  calc params.context bitmap reference x y
    _ < (bitmap.gather x y params.neighbours 0 + 1) * 2 ^ params.referenceNeighbours.length :=
      reference.gatherWrapped_lt _ _ _ _
    _ ≤ 2 ^ params.neighbours.length * 2 ^ params.referenceNeighbours.length :=
      Nat.mul_le_mul_right _ (by omega)
    _ = 1 <<< params.template.contextBits := by
      rw [← Nat.pow_add, hlength, Nat.one_shiftLeft]

def typical? (params : RefinementParams) (reference : Bitmap) (x y : Nat) :
    Option (Option Bool) := do
  let rx := wrapSigned (x - params.dx)
  let ry := wrapSigned (y - params.dy)
  let centre ← reference.pixel? rx ry
  let same ← square.allM fun p =>
    (reference.pixel? (wrapSigned (rx + p.x)) (wrapSigned (ry + p.y))).map (· == centre)
  return if same then some centre else none

theorem typical?_eq (params : RefinementParams) (reference : Bitmap) (x y : Nat) :
    params.typical? reference x y = some (params.typical reference x y) := by
  have hall : ∀ same : AtPixel → Bool,
      (square.allM fun p => some (same p)) = some (square.all same) := fun _ => List.allM_pure
  unfold typical? typical
  simp only [Bitmap.pixel?_eq, Option.bind_eq_bind, Option.bind_some, Option.map_some, hall]
  rfl

end RefinementParams

theorem RefinementTemplate.rowContext_lt (template : RefinementTemplate) :
    template.rowContext < 1 <<< template.contextBits := by
  cases template <;> decide

namespace Refinement

def decodePixel? (params : RefinementParams) (reference : Bitmap) (skip : Bool) (x y : Nat)
    (decoder : Decoder) (contexts : Contexts) (bitmap : Bitmap) :
    Option (Bool × Contexts × Decoder) :=
  (if skip then params.typical? reference x y else some none).bind fun
    | some colour => some (colour, contexts, decoder)
    | none => (params.context? bitmap reference x y).bind (decoder.decodeAt? contexts)

def decodePixels? (params : RefinementParams) (reference : Bitmap) (skip : Bool) (y : Nat) :
    (count x : Nat) → Decoder → Contexts → Bitmap → Option (Bitmap × Contexts × Decoder)
  | 0, _, decoder, contexts, bitmap => some (bitmap, contexts, decoder)
  | count + 1, x, decoder, contexts, bitmap => do
    let (bit, contexts, decoder) ←
      decodePixel? params reference skip x y decoder contexts bitmap
    let bitmap ← if bit then bitmap.set? x y true else some bitmap
    decodePixels? params reference skip y count (x + 1) decoder contexts bitmap

def decodeSkip? (params : RefinementParams) (skip : Bool) (decoder : Decoder)
    (contexts : Contexts) : Option (Bool × Contexts × Decoder) :=
  if params.skipsPixels then do
    let (change, contexts, decoder) ← decoder.decodeAt? contexts params.template.rowContext
    return (skip ^^ change, contexts, decoder)
  else some (false, contexts, decoder)

def decodeRow? (params : RefinementParams) (reference : Bitmap) (y : Nat) (skip : Bool)
    (decoder : Decoder) (contexts : Contexts) (bitmap : Bitmap) :
    Option (Bool × Bitmap × Contexts × Decoder) := do
  let (skip, contexts, decoder) ← decodeSkip? params skip decoder contexts
  return (skip, ← decodePixels? params reference skip y bitmap.width 0 decoder contexts bitmap)

def decodeRows? (params : RefinementParams) (reference : Bitmap) : (count y : Nat) →
    (skip : Bool) → Decoder → Contexts → Bitmap →
    Option (Except DecodeError (Bitmap × Contexts × Decoder))
  | 0, _, _, decoder, contexts, bitmap => some (.ok (bitmap, contexts, decoder))
  | count + 1, y, skip, decoder, contexts, bitmap => do
    let (skip, bitmap, contexts, decoder) ←
      decodeRow? params reference y skip decoder contexts bitmap
    match decoder.checkData with
    | .ok _ => decodeRows? params reference count (y + 1) skip decoder contexts bitmap
    | .error e => some (.error e)

/-- Decode the pixels of a white bitmap with checked access. -/
def decodeBitmap? (params : RefinementParams) (reference : Bitmap) (decoder : Decoder)
    (contexts : Contexts) (bitmap : Bitmap) :
    Option (Except DecodeError (Bitmap × Contexts × Decoder)) :=
  decodeRows? params reference bitmap.height 0 false decoder contexts bitmap

variable {params : RefinementParams} {reference : Bitmap} {decoder : Decoder}
  {contexts : Contexts} {bitmap : Bitmap}

theorem size_decodePixel (params : RefinementParams) (reference : Bitmap) (skip : Bool)
    (x y : Nat) (decoder : Decoder) (contexts : Contexts) (bitmap : Bitmap) :
    (decodePixel params reference skip x y decoder contexts bitmap).2.1.size = contexts.size := by
  unfold decodePixel
  split
  · rfl
  · exact Decoder.size_decodeAt ..

theorem decodePixel?_eq {skip : Bool} {x y : Nat}
    (h : contexts.size = 1 <<< params.template.contextBits) :
    decodePixel? params reference skip x y decoder contexts bitmap =
      some (decodePixel params reference skip x y decoder contexts bitmap) := by
  have htypical : (if skip then params.typical? reference x y else some none) =
      some (if skip then params.typical reference x y else none) := by
    split
    · exact params.typical?_eq reference x y
    · rfl
  rw [decodePixel?, decodePixel, htypical, Option.bind_some]
  cases if skip then params.typical reference x y else none with
  | some colour => rfl
  | none =>
    dsimp only
    rw [params.context?_eq]
    exact Decoder.decodeAt?_eq _ (h ▸ params.context_lt bitmap reference x y)

theorem size_decodePixels (params : RefinementParams) (reference : Bitmap) (skip : Bool)
    (y count x : Nat) (decoder : Decoder) (contexts : Contexts) (bitmap : Bitmap) :
    (decodePixels params reference skip y count x decoder contexts bitmap).2.1.size =
      contexts.size := by
  induction count generalizing x decoder contexts bitmap with
  | zero => rfl
  | succ count ih => exact (ih _ _ _ _).trans (size_decodePixel ..)

theorem decodePixels?_eq {skip : Bool} {y count x : Nat}
    (h : contexts.size = 1 <<< params.template.contextBits) :
    decodePixels? params reference skip y count x decoder contexts bitmap =
      some (decodePixels params reference skip y count x decoder contexts bitmap) := by
  induction count generalizing x decoder contexts bitmap with
  | zero => rfl
  | succ count ih =>
    have hsize := size_decodePixel params reference skip x y decoder contexts bitmap
    rw [decodePixels?, decodePixels_succ, decodePixel?_eq h]
    generalize decodePixel params reference skip x y decoder contexts bitmap = pixel at hsize ⊢
    obtain ⟨bit, contexts, decoder⟩ := pixel
    dsimp only [Option.bind_eq_bind, Option.bind_some] at hsize ⊢
    cases bit with
    | true =>
      rw [if_pos rfl, if_pos rfl, Bitmap.set?_eq]
      exact ih (hsize.trans h)
    | false => exact ih (hsize.trans h)

theorem size_decodeSkip (params : RefinementParams) (skip : Bool) (decoder : Decoder)
    (contexts : Contexts) : (decodeSkip params skip decoder contexts).2.1.size = contexts.size := by
  unfold decodeSkip
  split
  · exact Decoder.size_decodeAt ..
  · rfl

theorem decodeSkip?_eq {skip : Bool} (h : contexts.size = 1 <<< params.template.contextBits) :
    decodeSkip? params skip decoder contexts = some (decodeSkip params skip decoder contexts) := by
  unfold decodeSkip? decodeSkip
  split
  · rw [Decoder.decodeAt?_eq _ (h ▸ params.template.rowContext_lt)]
    rfl
  · rfl

theorem size_decodeRow (params : RefinementParams) (reference : Bitmap) (y : Nat) (skip : Bool)
    (decoder : Decoder) (contexts : Contexts) (bitmap : Bitmap) :
    (decodeRow params reference y skip decoder contexts bitmap).2.2.1.size = contexts.size :=
  (size_decodePixels ..).trans (size_decodeSkip ..)

theorem decodeRow?_eq {y : Nat} {skip : Bool}
    (h : contexts.size = 1 <<< params.template.contextBits) :
    decodeRow? params reference y skip decoder contexts bitmap =
      some (decodeRow params reference y skip decoder contexts bitmap) := by
  have hskip := (size_decodeSkip params skip decoder contexts).trans h
  rw [decodeRow?, decodeRow, decodeSkip?_eq h]
  dsimp only [Option.bind_eq_bind, Option.bind_some]
  rw [decodePixels?_eq hskip]
  rfl

/-- Decoding rows keeps the number of contexts. -/
theorem size_of_decodeRows {count y : Nat} {skip : Bool} {result : Bitmap × Contexts × Decoder}
    (h : decodeRows params reference count y skip decoder contexts bitmap = .ok result) :
    result.2.1.size = contexts.size := by
  induction count generalizing y skip decoder contexts bitmap with
  | zero =>
    cases h
    rfl
  | succ count ih =>
    rw [decodeRows_succ] at h
    obtain ⟨_, -, h⟩ := bind_eq_ok.mp h
    exact (ih h).trans (size_decodeRow ..)

theorem decodeRows?_eq {count y : Nat} {skip : Bool}
    (h : contexts.size = 1 <<< params.template.contextBits) :
    decodeRows? params reference count y skip decoder contexts bitmap =
      some (decodeRows params reference count y skip decoder contexts bitmap) := by
  induction count generalizing y skip decoder contexts bitmap with
  | zero => rfl
  | succ count ih =>
    have hsize := (size_decodeRow params reference y skip decoder contexts bitmap).trans h
    rw [decodeRows_succ, decodeRows?, decodeRow?_eq h]
    generalize decodeRow params reference y skip decoder contexts bitmap = row at hsize ⊢
    obtain ⟨skip, bitmap, contexts, decoder⟩ := row
    dsimp only [Option.bind_eq_bind, Option.bind_some] at hsize ⊢
    cases decoder.checkData with
    | ok _ => exact ih hsize
    | error e => rfl

theorem decodeBitmap?_eq (h : contexts.size = 1 <<< params.template.contextBits) :
    decodeBitmap? params reference decoder contexts bitmap =
      some (decodeBitmap params reference decoder contexts bitmap) := decodeRows?_eq h

end Refinement
end Bilevel

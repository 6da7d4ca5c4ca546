import Bilevel.Proofs.Huffman.Table
import Bilevel.Proofs.Mq.Values
import Bilevel.Proofs.Region.Generic
import Bilevel.Symbol.Sink
import Bilevel.Symbol.Source

/-!
# Sources that are linked with sinks

A source reads what was written to a sink. As long as the source is at the place where the sink
was, it reads the number that the sink got next, and is then at the place where the sink is. This
is the same for decisions and for Huffman codes.

## Main definitions

* `Linked` — a source is at the place in a finished stream where a sink was.
* `Sink.Leads` — a sink got what another one got, and maybe more.
* `Sink.Takes` — a value can be written to a sink.
* `Sink.spent` — a number that every value which is written makes larger.

## Main results

* `Linked.readNumber`, `Linked.readValue`, `Linked.readSymbolId` — numbers survive.
* `Linked.natAbs_le_of_readValue` — a number among decisions that can be read is not too large.
* `Sink.spent_lt_limit` — a finished stream bounds what can be spent.
-/

namespace Bilevel

open Bits Mq

/-- A finished stream: the bytes that code decisions, last one first, with the bytes behind them,
or the bytes that hold Huffman codes. -/
inductive Tape where
  | decisions (code t : List UInt8)
  | codes (data : Bytes)

/-- A number that is larger than anything that can be spent on a stream. -/
def Tape.limit : Tape → Nat
  | decisions code _ => 0x40000 * code.length + 0x10000
  | codes data => 8 * data.size + 1

namespace Sink

/-- A sink that can take up what comes next. -/
def Proper : Sink → Prop
  | decisions e _ => e.Ready
  | codes w tables => w.Valid ∧ ∀ q, (tables q).Sound

/-- A sink got what another one got, and maybe more. -/
def Leads : Sink → Sink → Prop
  | decisions e _, decisions f _ => e.Reaches f
  | codes w tables, codes w' tables' =>
    tables' = tables ∧ (w.Valid → w'.Valid ∧ w.bits <+: w'.bits)
  | _, _ => False

/-- What a sink got is at the beginning of a finished stream. -/
def On : Tape → Sink → Prop
  | .decisions code _, decisions e _ => e.Completes code
  | .codes data, codes w _ => w.bits <+: toList data
  | _, _ => False

/-- How much a sink got. -/
def spent : Sink → Nat
  | decisions e _ => e.effort
  | codes w _ => w.length

variable {s s' s'' : Sink} {tape : Tape}

theorem Leads.refl (s : Sink) : s.Leads s := by
  cases s with
  | decisions e contexts => exact Encoder.Reaches.refl e
  | codes w tables => exact ⟨rfl, fun h => ⟨h, List.prefix_refl _⟩⟩

theorem Leads.trans (h : s.Leads s') (h' : s'.Leads s'') : s.Leads s'' := by
  cases s <;> cases s' <;> cases s'' <;> first | exact h.elim | exact h'.elim | skip
  · exact Encoder.Reaches.trans h h'
  · refine ⟨h'.1.trans h.1, fun hw => ?_⟩
    obtain ⟨hw', hextends⟩ := h.2 hw
    obtain ⟨hw'', hextends'⟩ := h'.2 hw'
    exact ⟨hw'', hextends.trans hextends'⟩

theorem Leads.proper (h : s.Leads s') (hs : s.Proper) : s'.Proper := by
  cases s <;> cases s' <;> first | exact h.elim | skip
  · exact Encoder.Reaches.ready h hs
  · exact ⟨(h.2 hs.1).1, h.1 ▸ hs.2⟩

theorem Leads.on (h : s.Leads s') (hs : s.Proper) (hon : s'.On tape) : s.On tape := by
  cases s <;> cases s' <;> cases tape <;> first | exact h.elim | exact hon.elim | skip
  · exact Encoder.Reaches.completes h hs hon
  · exact (h.2 hs.1).2.trans hon

theorem Leads.spent_le (h : s.Leads s') (hs : s.Proper) : s.spent ≤ s'.spent := by
  cases s <;> cases s' <;> first | exact h.elim | skip
  · exact Encoder.effort_le_of_reaches hs h
  · have hle := (h.2 hs.1).2.length_le
    rwa [Writer.length_bits, Writer.length_bits] at hle

/-- A finished stream bounds what can be spent on it. -/
theorem spent_lt_limit (hon : s.On tape) : s.spent < tape.limit := by
  cases s <;> cases tape <;> first | exact hon.elim | skip
  · exact Encoder.effort_lt_of_completes hon
  · have hle := List.IsPrefix.length_le hon
    rw [Writer.length_bits, length_toList] at hle
    exact Nat.lt_succ_of_le hle

/-! ## Writing -/

theorem leads_encode {table : Huffman.Table} {tables : QuantityTables} {w w' : Writer}
    {value : Option Int} (h : table.encode w value = .ok w') :
    (codes w tables).Leads (codes w' tables) := by
  unfold Huffman.Table.encode at h
  split at h
  · exact absurd h (by simp)
  · next entry _ =>
    obtain rfl := Except.ok.inj h
    refine ⟨rfl, fun hw => ?_⟩
    obtain ⟨hbits, hvalid⟩ := Writer.bits_writeBits hw entry.line.length entry.code
    obtain ⟨hbits', hvalid'⟩ := Writer.bits_writeBits hvalid entry.line.range.bits
      (entry.line.range.placeOf value)
    rw [hbits', hbits, List.append_assoc]
    exact ⟨hvalid', List.prefix_append _ _⟩

theorem leads_writeValue {q : Quantity} {value : Option Int} (h : s.writeValue q value = .ok s') :
    s.Leads s' := by
  cases s with
  | decisions e contexts =>
    obtain rfl := Except.ok.inj h
    exact Integer.reaches_encode e (contexts.of q) value
  | codes w tables =>
    obtain ⟨w', hw', h'⟩ := bind_eq_ok.mp h
    obtain rfl := Except.ok.inj h'
    exact leads_encode hw'

theorem writeValue_of_writeNumber {q : Quantity} {n : Int} (h : s.writeNumber q n = .ok s') :
    s.writeValue q (some n) = .ok s' := by
  unfold writeNumber at h
  split at h
  · exact h
  · exact absurd h (by simp)

theorem leads_writeNumber {q : Quantity} {n : Int} (h : s.writeNumber q n = .ok s') : s.Leads s' :=
  leads_writeValue (writeValue_of_writeNumber h)

theorem leads_writeSymbolId (s : Sink) (id : Nat) : s.Leads (s.writeSymbolId id) := by
  cases s with
  | decisions e contexts => exact SymbolId.reaches_encode e contexts.ids contexts.idLength id
  | codes w tables => exact .refl _

theorem leads_writeBitmap (s : Sink) (params : GenericParams) (bitmap : Bitmap) :
    s.Leads (s.writeBitmap params bitmap) := by
  cases s with
  | decisions e contexts =>
    exact Generic.reaches_encodeBitmap params e contexts.generic bitmap
  | codes w tables => exact .refl _

/-- Whether a sink takes a value, wherever it is. -/
def Takes (q : Quantity) (value : Option Int) : Sink → Prop
  | decisions .. => True
  | codes _ tables => ∀ w, ∃ w', (tables q).encode w value = .ok w'

theorem Takes.exists_writeValue {q : Quantity} {value : Option Int} (h : s.Takes q value) :
    ∃ s', s.writeValue q value = .ok s' := by
  cases s with
  | decisions => exact ⟨_, rfl⟩
  | codes w tables =>
    obtain ⟨w', hw'⟩ := h w
    exact ⟨codes w' tables, bind_eq_ok.mpr ⟨w', hw', rfl⟩⟩

theorem Takes.exists_writeNumber {q : Quantity} {n : Int} (h : s.Takes q (some n))
    (hn : FitsSigned n) : ∃ s', s.writeNumber q n = .ok s' := by
  rw [writeNumber, if_pos hn]
  exact h.exists_writeValue

/-- A sink takes the same values whatever it got before. -/
theorem Leads.takes (h : s.Leads s') {q : Quantity} {value : Option Int} (hs : s.Takes q value) :
    s'.Takes q value := by
  cases s <;> cases s' <;> first | exact h.elim | skip
  · trivial
  · exact h.1 ▸ hs

/-- Every value costs something. -/
theorem spent_lt_writeValue {q : Quantity} {value : Option Int} (hs : s.Proper)
    (h : s.writeValue q value = .ok s') : s.spent < s'.spent := by
  cases s with
  | decisions e contexts =>
    obtain rfl := Except.ok.inj h
    exact Integer.effort_lt_encode hs (contexts.of q) value
  | codes w tables =>
    obtain ⟨w', hw', h'⟩ := bind_eq_ok.mp h
    obtain rfl := Except.ok.inj h'
    unfold Huffman.Table.encode at hw'
    split at hw'
    · exact absurd hw' (by simp)
    · next entry hentry =>
      obtain rfl := Except.ok.inj hw'
      have hpos : 0 < entry.line.length :=
        of_decide_eq_true (Huffman.Table.entryFor_spec hentry).2.1
      obtain ⟨hbits, hvalid⟩ := Writer.bits_writeBits hs.1 entry.line.length entry.code
      obtain ⟨hbits', _⟩ := Writer.bits_writeBits hvalid entry.line.range.bits
        (entry.line.range.placeOf value)
      have hlength := congrArg List.length hbits'
      rw [hbits, List.length_append, List.length_append, length_lowBits, length_lowBits,
        Writer.length_bits, Writer.length_bits] at hlength
      simp only [spent]
      omega

/-- Symbol numbers are written as decisions, in so many bits. -/
def CodesIds (bits : Nat) : Sink → Prop
  | decisions _ contexts => contexts.idLength = bits
  | codes .. => False

/-- Decisions stand for every value. -/
theorem CodesIds.takes {bits : Nat} (hs : s.CodesIds bits) (q : Quantity) (value : Option Int) :
    s.Takes q value := by
  cases s with
  | decisions => trivial
  | codes => exact hs.elim

theorem CodesIds.writeValue {bits : Nat} (hs : s.CodesIds bits) {q : Quantity}
    {value : Option Int} (h : s.writeValue q value = .ok s') : s'.CodesIds bits := by
  cases s with
  | decisions e contexts =>
    obtain rfl := Except.ok.inj h
    exact hs
  | codes => exact hs.elim

theorem CodesIds.writeNumber {bits : Nat} (hs : s.CodesIds bits) {q : Quantity} {n : Int}
    (h : s.writeNumber q n = .ok s') : s'.CodesIds bits :=
  hs.writeValue (writeValue_of_writeNumber h)

theorem CodesIds.writeSymbolId {bits : Nat} (hs : s.CodesIds bits) (id : Nat) :
    (s.writeSymbolId id).CodesIds bits := by
  cases s with
  | decisions => exact hs
  | codes => exact hs.elim

end Sink

/-! ## Reading -/

/-- All contexts for what is written to a sink are the same. -/
structure SymbolContexts.Same (c c' : SymbolContexts) : Prop where
  numbers : c'.numbers = c.numbers
  ids : c'.ids = c.ids
  idLength : c'.idLength = c.idLength
  generic : c'.generic = c.generic

namespace SymbolContexts

variable {c c' : SymbolContexts}

theorem Same.of (h : c.Same c') (q : Quantity) : c'.of q = c.of q := by
  unfold SymbolContexts.of
  rw [h.numbers]

theorem Same.put (h : c.Same c') (q : Quantity) (learnt : Contexts) :
    (c.put q learnt).Same (c'.put q learnt) :=
  ⟨congrArg (·.setIfInBounds q.index learnt) h.numbers, h.ids, h.idLength, h.generic⟩

theorem Same.withIds (h : c.Same c') (learnt : Contexts) :
    ({ c with ids := learnt }).Same { c' with ids := learnt } :=
  ⟨h.numbers, rfl, h.idLength, h.generic⟩

theorem Same.withGeneric (h : c.Same c') (learnt : Contexts) :
    ({ c with generic := learnt }).Same { c' with generic := learnt } :=
  ⟨h.numbers, h.ids, h.idLength, rfl⟩

end SymbolContexts

/-- A source is at the place in a finished stream where a sink was. -/
inductive Linked : Tape → Sink → Source → Prop
  | decisions {code t : List UInt8} {e : Encoder} {d : Decoder} {c c' : SymbolContexts}
    (h : Follows code t e d) (hc : c.Same c') :
    Linked (.decisions code t) (.decisions e c) (.decisions d c')
  | codes {data : Bytes} {w : Writer} {tables : QuantityTables} {ids : SymbolIdCode}
    (hw : w.Valid) (ht : ∀ q, (tables q).Sound) :
    Linked (.codes data) (.codes w tables) (.codes ⟨data, w.length⟩ tables ids)

namespace Linked

variable {tape : Tape} {sink sink' : Sink} {source : Source}

theorem proper (h : Linked tape sink source) : sink.Proper := by
  cases h with
  | decisions h _ => exact h.ready
  | codes hw ht => exact ⟨hw, ht⟩

/-- The value that is written next is read. -/
theorem readValue (h : Linked tape sink source) {q : Quantity} {value : Option Int}
    (hv : Integer.Representable value) (hw : sink.writeValue q value = .ok sink')
    (hon : sink'.On tape) :
    ∃ source', Source.readValue q source = .ok (value, source') ∧ Linked tape sink' source' := by
  cases h with
  | @decisions code t e d c c' h hc =>
    obtain rfl := Except.ok.inj hw
    obtain ⟨d', hd, h'⟩ := Integer.decode_encode h hv hon
    refine ⟨_, ?_, .decisions h' (hc.put q _)⟩
    simp only [Source.readValue, hc.of, hd]
    rfl
  | @codes data w tables ids hvalid hsound =>
    obtain ⟨w', hw', h'⟩ := bind_eq_ok.mp hw
    obtain rfl := Except.ok.inj h'
    have hfits : ∀ n ∈ value, FitsSigned n := by
      intro n hn
      have := hv n hn
      unfold FitsSigned
      omega
    obtain ⟨bits, hvalid', hbits, hreads⟩ :=
      Huffman.Table.exists_reads_decode (hsound q) hvalid hfits hw'
    refine ⟨.codes ⟨data, w'.length⟩ tables ids, ?_, .codes hvalid' hsound⟩
    simp only [Source.readValue, hreads.run_writer False.elim hbits hon]
    rfl

/-- The number that is written next is read. -/
theorem readNumber (h : Linked tape sink source) {q : Quantity} {n : Int}
    (hn : n.natAbs ≤ 0x7FFFFFFF) (hw : sink.writeValue q (some n) = .ok sink')
    (hon : sink'.On tape) :
    ∃ source', Source.readNumber q source = .ok (n, source') ∧ Linked tape sink' source' := by
  obtain ⟨source', hread, h'⟩ := h.readValue (Integer.representable_some hn) hw hon
  refine ⟨source', ?_, h'⟩
  simp only [Source.readNumber, Bind.bind, StateT.bind, Except.bind, hread]
  rfl

section

variable {code t : List UInt8} {q : Quantity} {n : Int}

/-- A number that is read among decisions is not too large. -/
theorem natAbs_le_of_readValue (h : Linked (.decisions code t) sink source)
    (hw : sink.writeNumber q n = .ok sink') (hon : sink'.On (.decisions code t))
    {result : Option Int × Source} (hread : Source.readValue q source = .ok result) :
    n.natAbs ≤ 0x7FFFFFFF := by
  unfold Sink.writeNumber at hw
  split at hw
  · next hn =>
    cases h with
    | @decisions _ _ e d c c' h hc =>
      obtain rfl := Except.ok.inj hw
      obtain ⟨decoded, hdecode, -⟩ := bind_eq_ok.mp hread
      rw [hc.of] at hdecode
      have hcompletes : (Integer.encode e (c.of q) (some n)).2.Completes code := hon
      have hmagnitude : Integer.magnitude (some n) ≤ 0xFFFFFFFF := by
        unfold FitsSigned at hn
        simp only [Integer.magnitude, Option.map_some, Option.getD_some]
        omega
      exact Integer.representable_of_decode h hmagnitude hcompletes hdecode n rfl
  · cases hw

theorem natAbs_le_of_readNumber (h : Linked (.decisions code t) sink source)
    (hw : sink.writeNumber q n = .ok sink') (hon : sink'.On (.decisions code t))
    {result : Int × Source} (hread : Source.readNumber q source = .ok result) :
    n.natAbs ≤ 0x7FFFFFFF := by
  obtain ⟨value, s, hvalue, -⟩ := run_bind_eq_ok.mp hread
  exact h.natAbs_le_of_readValue hw hon hvalue

end

/-- The symbol number that is written next, among decisions, is read. -/
theorem readSymbolId (h : Linked tape sink source) {bits id : Nat} (hbits : sink.CodesIds bits)
    (hid : id < 2 ^ bits) (hon : (sink.writeSymbolId id).On tape) :
    ∃ source', Source.readSymbolId source = .ok (id, source') ∧
      Linked tape (sink.writeSymbolId id) source' := by
  cases h with
  | @decisions _ _ e d c c' h hc =>
    obtain rfl : c.idLength = bits := hbits
    obtain ⟨d', hd, h'⟩ := SymbolId.decode_encode h hid hon
    refine ⟨_, ?_, .decisions h' (hc.withIds _)⟩
    simp only [Source.readSymbolId, hc.ids, hc.idLength, hd]
    rfl
  | codes => exact hbits.elim

end Linked
end Bilevel

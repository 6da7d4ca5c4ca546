import Bilevel.Proofs.Region.Data
import Bilevel.Proofs.Text.Instances

/-!
# Reading back text regions

The instances of a text region are written strip by strip, not in the order in which they are
given. As they are joined with the region, the order in which they are drawn makes no difference.

## Main definitions

* `Text.Legible` — whether the instances of a region can be read.

## Main results

* `Text.drawInstances_perm` — instances can be drawn in any order.
* `Text.decodeRegion_encodeRegion` — text regions survive encoding and decoding, if they can be
  read.
* `Text.legible_of_decodeRegion` — no other text region that is written is decoded.
-/

namespace Bilevel.Text

open Bits Mq

/-! ## The order of instances -/

/-- Instances can be drawn in any order. -/
theorem drawInstances_perm {symbols : Array Bitmap} {ps qs : List Placement} (h : ps.Perm qs)
    (region : Bitmap) :
    Encoder.drawInstances symbols ps region = Encoder.drawInstances symbols qs region := by
  refine h.foldl_eq' (fun p _ q _ b => ?_) region
  cases symbols[p.symbol]? with
  | none => rfl
  | some s =>
    cases symbols[q.symbol]? with
    | none => rfl
    | some t => exact Bitmap.combine_or_comm b s t p.x p.y q.x q.y

/-! ## Headers -/

/-- The field of flags of a text region: strips, and the corner of the instances. -/
def flagsOf (logStrips : Nat) : Nat := 4 * logStrips + 16 * Corner.topLeft.code

/-- The bytes in front of the coded instances. -/
def headerBytes (info : RegionInfo) (logStrips count : Nat) : Bytes :=
  info.bytes ++ (toBigEndian 2 (flagsOf logStrips) ++ toBigEndian 4 count)

/-- What stands in front of the instances of a region. -/
def headerOf (settings : DecodeSettings) (info : RegionInfo) (logStrips count : Nat) : Header where
  info := info
  selections := none
  startsBlack := false
  params := paramsOf settings logStrips
  count := count

theorem readsBytes_readHeader (settings : DecodeSettings) {info : RegionInfo} (hinfo : info.Fits)
    {logStrips count : Nat} (hlog : logStrips ≤ 3) (hcount : count ≤ 0xFFFFFFFF) :
    ReadsBytes (Header.read settings) (headerBytes info logStrips count)
      (headerOf settings info logStrips count) := by
  have hflags : ∀ i : Fin 4, let flags := flagsOf i
      flags < 256 ^ 2 ∧ CombinationOperator.ofCode? (flags / 128 % 4) = some .or ∧
        (flags.testBit 0 = false ∧ flags.testBit 1 = false ∧ flags.testBit 6 = false) ∧
        (flags.testBit 9 = false ∧ flags.testBit 15 = false) ∧
        Corner.ofCode (flags / 16 % 4) = .topLeft ∧ flags / 4 % 4 = i ∧
        toSigned 5 (flags >>> 10) = 0 := by
    decide
  obtain ⟨hlt, hoperator, ⟨hcodes, hrefines, htransposed⟩, ⟨hblack, htemplate⟩, hcorner, hstrips,
    hoffset⟩ := hflags ⟨logStrips, Nat.lt_succ_of_le hlog⟩
  dsimp only at hlt hoperator hcodes hrefines htransposed hblack htemplate hcorner hstrips hoffset
  refine (RegionInfo.readsBytes hinfo settings).bind ?_
  refine (readsBytes_readUnsigned hlt).bind ?_
  simp only [hoperator, hcodes, hrefines, htransposed, hblack, htemplate, hcorner, hstrips, hoffset]
  refine (readsBytes_pure none).bind_nil ((readsBytes_pure _).bind_nil ?_)
  exact (readsBytes_readUnsigned (by omega)).bind_pure fun count =>
    headerOf settings info logStrips count

/-! ## Regions -/

section

variable {settings : DecodeSettings} {info : RegionInfo} {symbols : Array Bitmap}
  {instances : List Placement} {logStrips : Nat} {data : Bytes}

/-- Decisions for the place in front of all strips and for instances in the order of their strips. -/
structure Streamed (symbols : Array Bitmap) (instances : List Placement) (logStrips : Nat)
    (f : Mq.Encoder) : Prop where
  log : logStrips ≤ 3
  symbol : ∀ p ∈ instances, p.symbol < symbols.size
  count : instances.length ≤ 0xFFFFFFFF
  reaches : Encoder.start.Reaches f
  writes : ∃ sink contexts, (Sink.decisions .start
      (.fresh (symbolCodeLength symbols.size) #[] #[])).writeNumber .deltaStrip 0 = .ok sink ∧
    writeInstances logStrips symbols (instances.mergeSort (comesBefore logStrips)) ⟨0, 0, none⟩
      sink = .ok (.decisions f contexts)

/-- What is written for a text region: its header, and decisions for its instances. -/
theorem encodeRegion_cases (h : encodeRegion info symbols instances logStrips = .ok data) :
    ∃ f, Streamed symbols instances logStrips f ∧
      data = headerBytes info logStrips instances.length ++ f.finish := by
  unfold encodeRegion at h
  split at h
  · exact absurd h (by simp)
  split at h
  · exact absurd h (by simp)
  next hany =>
  split at h
  · exact absurd h (by simp)
  obtain ⟨sink, hstart, h⟩ := bind_eq_ok.mp h
  obtain ⟨sink', hinstances, h⟩ := bind_eq_ok.mp h
  have hleads := (Sink.leads_writeNumber hstart).trans (leads_writeInstances hinstances)
  cases sink' with
  | codes w tables => exact hleads.elim
  | decisions f contexts =>
    refine ⟨f, ⟨by omega, fun p hp => ?_, by omega, hleads, sink, contexts, hstart, hinstances⟩, ?_⟩
    · simp only [List.any_eq_true, not_exists, not_and, decide_eq_true_eq, Nat.not_le] at hany
      exact hany p hp
    · rw [← Except.ok.inj h]
      simp [RegionInfo.write_eq, headerBytes, flagsOf, Writer.writeUnsigned, Writer.writeBytes,
        Writer.empty, Sink.finish, Array.append_assoc]

/-- Whether the instances of a region can be read, in the order in which they are written. -/
def Legible (symbols : Array Bitmap) (instances : List Placement) (logStrips : Nat) : Prop :=
  Readable logStrips symbols ⟨0, 0, none⟩ (instances.mergeSort (comesBefore logStrips))

instance (symbols : Array Bitmap) (instances : List Placement) (logStrips : Nat) :
    Decidable (Legible symbols instances logStrips) := decidableReadable ..

/-- Instances that aren't too far away can be read. -/
theorem legible_of_near (hlog : logStrips ≤ 3) (hsymbols : ∀ s ∈ symbols, s.width < 0x20000000)
    (hinstances : ∀ p ∈ instances, (-0x20000000 ≤ p.x ∧ p.x < 0x20000000) ∧
      (-0x20000000 ≤ p.y ∧ p.y < 0x20000000)) : Legible symbols instances logStrips := by
  refine readable_of_close hlog hsymbols (fun p hp => hinstances p (List.mem_mergeSort.mp hp)) ?_
  constructor <;> simp

/-- The last column of an instance has to be in the range of coordinates. -/
example : Legible #[.blank 1 1] [⟨0, 0x7FFFFFFF, 0⟩] 0 ∧
    ¬Legible #[.blank 2 1] [⟨0, 0x7FFFFFFF, 0⟩] 0 := by
  decide +kernel

/-- The source from which decisions are read that were written for instances. -/
def sourceFrom (settings : DecodeSettings) (symbols : Array Bitmap) (logStrips : Nat)
    (f : Mq.Encoder) : Source :=
  .decisions (Decoder.ofBytes f.finish) (.fresh (symbolCodeLength symbols.size) #[]
    ((paramsOf settings logStrips).style.params 0 0).freshContexts)

/-- Decoding a region that was written is reading its instances. -/
theorem decodeRegion_eq (hinfo : info.Fits)
    (hsize : info.width * info.height ≤ settings.maxPixelCount) (hlog : logStrips ≤ 3) {count : Nat}
    (hcount : count ≤ 0xFFFFFFFF) (f : Mq.Encoder) :
    decodeRegion settings (headerBytes info logStrips count ++ f.finish) symbols [] =
      ((decodeInstances (paramsOf settings logStrips) symbols count
        (.blank info.width info.height)).run (sourceFrom settings symbols logStrips f)) >>=
          fun result => .ok ⟨⟨info, result.1.1⟩, result.1.2⟩ := by
  have hread := (readsBytes_readHeader settings hinfo hlog hcount).run_append f.finish
  generalize hheader : headerOf settings info logStrips count = header at hread
  have hsource : sourceOf header symbols.size [] ⟨headerBytes info logStrips count ++ f.finish,
      8 * (headerBytes info logStrips count).size⟩ =
        .ok (sourceFrom settings symbols logStrips f) := by
    unfold sourceOf
    rw [← hheader]
    unfold headerOf
    dsimp only
    rw [Reader.tail_append]
    rfl
  have hwhite : header.startsBlack = false := hheader ▸ rfl
  have hcount : header.count = count := hheader ▸ rfl
  have hparams : header.params = paramsOf settings logStrips := hheader ▸ rfl
  have hinfo : header.info = info := hheader ▸ rfl
  unfold decodeRegion
  simp only [hread, hwhite, hsource, hcount, hparams, hinfo, Bitmap.create_eq hsize, Bind.bind,
    Except.bind, Bool.false_eq_true, if_false]
  generalize (decodeInstances (paramsOf settings logStrips) symbols count
    (.blank info.width info.height)).run (sourceFrom settings symbols logStrips f) = result
  cases result <;> rfl

namespace Streamed

variable {f : Mq.Encoder}

theorem linked (h : Streamed symbols instances logStrips f) (settings : DecodeSettings) :
    Linked (.decisions f.flushed.code [])
      (.decisions .start (.fresh (symbolCodeLength symbols.size) #[] #[]))
      (sourceFrom settings symbols logStrips f) :=
  .decisions (follows_finish h.reaches) ⟨rfl, rfl, rfl, rfl⟩

theorem on (h : Streamed symbols instances logStrips f) (contexts : SymbolContexts) :
    Sink.On (.decisions f.flushed.code []) (.decisions f contexts) :=
  completes_flushed_of_reaches h.reaches

theorem placeable (h : Streamed symbols instances logStrips f)
    (hinstances : ∀ p ∈ instances, FitsSigned p.x ∧ FitsSigned p.y) :
    ∀ p ∈ instances.mergeSort (comesBefore logStrips), Placeable symbols p := fun p hp =>
  have hp := List.mem_mergeSort.mp hp
  ⟨h.symbol p hp, (hinstances p hp).1, (hinstances p hp).2⟩

end Streamed

/-- The region and the places of its instances survive encoding and decoding, as long as these can
be read. -/
theorem decodeRegion_encodeRegion (hinfo : info.Fits)
    (hsize : info.width * info.height ≤ settings.maxPixelCount) (hsymbols : Sided symbols)
    (hinstances : ∀ p ∈ instances, FitsSigned p.x ∧ FitsSigned p.y)
    (hlegible : Legible symbols instances logStrips)
    (h : encodeRegion info symbols instances logStrips = .ok data) :
    decodeRegion settings data symbols [] =
      .ok ⟨⟨info, Encoder.drawInstances symbols instances (.blank info.width info.height)⟩,
        (instances.mergeSort (comesBefore logStrips)).toArray⟩ := by
  obtain ⟨f, hf, rfl⟩ := encodeRegion_cases h
  obtain ⟨sink, contexts, hstart, hwrite⟩ := hf.writes
  have hperm := List.mergeSort_perm instances (comesBefore logStrips)
  obtain ⟨source, hdecode⟩ := decodeInstances_writeInstances settings (hf.linked settings) rfl
    (SymbolId.le_symbolCodeLength symbols.size) hf.log hsymbols (hf.placeable hinstances) hlegible
    hstart hwrite (hf.on contexts) (.blank info.width info.height)
  rw [hperm.length_eq, drawInstances_perm hperm] at hdecode
  rw [decodeRegion_eq hinfo hsize hf.log hf.count, hdecode]
  rfl

/-- Otherwise the region can't be decoded. -/
theorem legible_of_decodeRegion (hinfo : info.Fits)
    (hsize : info.width * info.height ≤ settings.maxPixelCount) (hsymbols : Sided symbols)
    (hinstances : ∀ p ∈ instances, FitsSigned p.x ∧ FitsSigned p.y)
    (h : encodeRegion info symbols instances logStrips = .ok data) {decoded : TextRegion}
    (hdecoded : decodeRegion settings data symbols [] = .ok decoded) :
    Legible symbols instances logStrips := by
  obtain ⟨f, hf, rfl⟩ := encodeRegion_cases h
  obtain ⟨sink, contexts, hstart, hwrite⟩ := hf.writes
  have hperm := List.mergeSort_perm instances (comesBefore logStrips)
  rw [decodeRegion_eq hinfo hsize hf.log hf.count, ← hperm.length_eq] at hdecoded
  obtain ⟨result, hread, -⟩ := bind_eq_ok.mp hdecoded
  exact readable_of_decodeInstances (hf.linked settings) rfl
    (SymbolId.le_symbolCodeLength symbols.size) hf.log hsymbols (hf.placeable hinstances) hstart
    hwrite (hf.on contexts) hread

end

end Bilevel.Text

import Bilevel.Proofs.Segment.Fields
import Bilevel.Proofs.Symbol.Classes
import Bilevel.Proofs.Symbol.Export
import Mathlib.Algebra.Order.BigOperators.Group.List

/-!
# Reading back symbol dictionaries

A dictionary that was written is read as the symbols that it exports, in the order in which they
were written, whichever way it is coded.

## Main definitions

* `Symbol.Storable` — symbols that can be read back.

## Main results

* `Symbol.decode_encode` — dictionaries survive encoding and decoding.
-/

namespace Bilevel

open Bits Mq

namespace Symbol

/-! ## The order of symbols -/

theorem orderOf_perm (symbols : List Bitmap) : ((orderOf symbols).map (·.1)).Perm symbols := by
  have hperm := (List.mergeSort_perm symbols.zipIdx fun a b => comesBefore a.1 b.1).map (·.1)
  rwa [List.zipIdx_map_fst] at hperm

theorem getElem?_of_mem_orderOf {symbols : List Bitmap} {p : Bitmap × Nat}
    (h : p ∈ orderOf symbols) : symbols[p.2]? = some p.1 := by
  have hmem := (List.mergeSort_perm _ _).mem_iff.mp h
  exact List.mem_zipIdx_iff_getElem?.mp hmem

/-- The symbols that are exported are those at the exported places. -/
theorem selected_order {symbols : List Bitmap} {sorted : List (Bitmap × Nat)}
    (h : ∀ p ∈ sorted, symbols[p.2]? = some p.1) (exports : Nat → Bool) :
    selected (sorted.map (·.1)) ((sorted.map (·.2)).map exports) =
      ((sorted.map (·.2)).filter exports).filterMap fun i => symbols[i]? := by
  induction sorted with
  | nil => rfl
  | cons p sorted ih =>
    have hp := h p List.mem_cons_self
    have ih := ih fun q hq => h q (List.mem_cons_of_mem p hq)
    rw [List.map_cons, List.map_cons, List.map_cons, selected, ih, List.filter_cons]
    split <;> simp [hp]

/-! ## Classes -/

theorem classesOf_spec (symbols : List Bitmap) : (classesOf symbols).flatten = symbols ∧
    ∀ c ∈ classesOf symbols, ∃ first others, c = first :: others ∧
      ∀ s ∈ c, s.height = first.height := by
  induction symbols with
  | nil => exact ⟨rfl, fun c hc => absurd hc List.not_mem_nil⟩
  | cons symbol symbols ih =>
    obtain ⟨hflatten, hclasses⟩ := ih
    have hone : ∀ c ∈ ([symbol] :: classesOf symbols), ∃ first others, c = first :: others ∧
        ∀ s ∈ c, s.height = first.height := by
      intro c hc
      rcases List.mem_cons.mp hc with rfl | hc
      · exact ⟨symbol, [], rfl, by simp⟩
      · exact hclasses c hc
    unfold classesOf
    split
    · next next others classes heq =>
      rw [heq] at hflatten hclasses hone
      split
      · next hheight =>
        refine ⟨by simpa using hflatten, fun c hc => ?_⟩
        rcases List.mem_cons.mp hc with rfl | hc
        · obtain ⟨first, others', hfirst, hsame⟩ := hclasses _ List.mem_cons_self
          obtain ⟨rfl, rfl⟩ := List.cons.inj hfirst
          refine ⟨symbol, _, rfl, fun s hs => ?_⟩
          rcases List.mem_cons.mp hs with rfl | hs
          · rfl
          · rw [hsame s hs, hheight]
        · exact hclasses c (List.mem_cons_of_mem _ hc)
      · exact ⟨by simpa using hflatten, hone⟩
    · next heq =>
      exact ⟨by simpa using hflatten, hone⟩

/-- Symbols that are read back: there are not too many of them, and those of each height have not
too many pixels side by side. -/
structure Storable (symbols : List Bitmap) : Prop where
  length : symbols.length ≤ 0x7FFFFFFF
  size : ∀ s ∈ symbols,
    totalWidth (symbols.filter fun t => t.height == s.height) * s.height ≤ 0x40000000

instance (symbols : List Bitmap) : Decidable (Storable symbols) :=
  decidable_of_iff (symbols.length ≤ 0x7FFFFFFF ∧ ∀ s ∈ symbols,
      totalWidth (symbols.filter fun t => t.height == s.height) * s.height ≤ 0x40000000)
    ⟨fun h => ⟨h.1, h.2⟩, fun h => ⟨h.length, h.size⟩⟩

theorem width_le_totalWidth {symbols : List Bitmap} {s : Bitmap} (h : s ∈ symbols) :
    s.width ≤ totalWidth symbols :=
  List.single_le_sum (fun _ _ => Nat.zero_le _) _ (List.mem_map_of_mem h)

/-- A class of symbols that are written takes no more room than all symbols of its height. -/
theorem totalWidth_le_filter {symbols c : List Bitmap} {height : Nat}
    (h : c ∈ classesOf ((orderOf symbols).map (·.1))) (hc : ∀ s ∈ c, s.height = height) :
    totalWidth c ≤ totalWidth (symbols.filter fun t => t.height == height) := by
  have hsub : c.Sublist ((orderOf symbols).map (·.1)) := by
    have hflatten := (classesOf_spec ((orderOf symbols).map (·.1))).1
    rw [← hflatten]
    exact List.sublist_flatten_of_mem h
  have hsub' := hsub.filter fun t => t.height == height
  rw [List.filter_eq_self.mpr fun s hs => beq_iff_eq.mpr (hc s hs)] at hsub'
  have hperm := ((orderOf_perm symbols).filter fun t => t.height == height).map (·.width)
  have hle := (hsub'.map (·.width)).sum_le_sum fun _ _ => Nat.zero_le _
  rwa [hperm.sum_eq] at hle

theorem readableClass_of_storable {settings : DecodeSettings} {symbols : List Bitmap}
    (h : Storable symbols) (hsettings : 0x40000000 ≤ settings.maxPixelCount)
    (hpos : ∀ s ∈ symbols, 0 < s.width ∧ 0 < s.height) :
    ∀ c ∈ classesOf ((orderOf symbols).map (·.1)), ∃ first others, c = first :: others ∧
      ReadableClass settings first.height c := by
  intro c hc
  obtain ⟨hflatten, hclasses⟩ := classesOf_spec ((orderOf symbols).map (·.1))
  obtain ⟨first, others, rfl, hheight⟩ := hclasses c hc
  have hmem : ∀ s ∈ first :: others, s ∈ symbols := fun s hs =>
    (orderOf_perm symbols).mem_iff.mp (hflatten ▸ List.mem_flatten.mpr ⟨_, hc, hs⟩)
  have hfirst := hmem first List.mem_cons_self
  obtain ⟨hwidth₁, hheight₁⟩ := hpos first hfirst
  have hsize : totalWidth (first :: others) * first.height ≤ 0x40000000 :=
    (Nat.mul_le_mul_right _ (totalWidth_le_filter hc hheight)).trans (h.size first hfirst)
  have htotal : totalWidth (first :: others) ≤ 0x40000000 :=
    (Nat.le_mul_of_pos_right _ hheight₁).trans hsize
  have hrows : first.height ≤ 0x40000000 := by
    have hle := width_le_totalWidth (List.mem_cons_self (a := first) (l := others))
    exact (Nat.le_mul_of_pos_left _ (by omega)).trans hsize
  have hone : ∀ s ∈ first :: others, s.width ≤ totalWidth (first :: others) :=
    fun s hs => width_le_totalWidth hs
  refine ⟨first, others, rfl, ⟨hheight, fun s hs => (hone s hs).trans htotal, fun s hs => ?_⟩,
    hrows, htotal.trans (by decide), hsize.trans hsettings⟩
  rw [hheight s hs]
  exact ((Nat.mul_le_mul_right _ (hone s hs)).trans hsize).trans hsettings

/-! ## Headers -/

/-- The field of flags in front of a dictionary. -/
def flagsOf : Coding → Nat
  | .codes => 1
  | .decisions template => template.code <<< 10

/-- The adaptive pixels in front of a dictionary. -/
def pixelsOf : Coding → List AtPixel
  | .codes => []
  | .decisions template => template.nominalAt

/-- What stands in front of a dictionary. -/
def headerOf (coding : Coding) (exportedCount newCount : Nat) : Header where
  selections :=
    match coding with
    | .codes => some standardSelections
    | .decisions _ => none
  style := {
    template := coding.template
    atPixels := pixelsOf coding
    aggregates := false
    refinement := ⟨.template0, {}⟩ }
  continues := false
  retains := false
  exportedCount := exportedCount
  newCount := newCount

def headerBytes (coding : Coding) (exportedCount newCount : Nat) : Bytes :=
  toBigEndian 2 (flagsOf coding) ++ (AtPixel.bytesOf (pixelsOf coding) ++
    (toBigEndian 4 exportedCount ++ toBigEndian 4 newCount))

theorem writeFlags_eq (coding : Coding) (exportedCount newCount : Nat) :
    ((writeFlags coding .empty).writeUnsigned 4 exportedCount).writeUnsigned 4 newCount =
      ⟨headerBytes coding exportedCount newCount, 0⟩ := by
  cases coding <;>
    simp [writeFlags, headerBytes, AtPixel.writeAll_eq, flagsOf, pixelsOf, Writer.writeUnsigned,
      Writer.writeBytes, Writer.empty, AtPixel.bytesOf, Array.append_assoc]

theorem causal_pixelsOf (coding : Coding) : ∀ p ∈ pixelsOf coding, p.causal = true := by
  cases coding with
  | codes => exact fun p hp => absurd hp List.not_mem_nil
  | decisions template => exact (Generic.writable_nominal template false).causal

theorem readsBytes_readHeader {settings : DecodeSettings} {coding : Coding}
    {exportedCount newCount : Nat} (hexported : exportedCount ≤ 0xFFFFFFFF)
    (hnew : newCount ≤ 0xFFFFFFFF) :
    ReadsBytes (Header.read settings) (headerBytes coding exportedCount newCount)
      (headerOf coding exportedCount newCount) := by
  have hflags : ∀ coding, flagsOf coding < 256 ^ 2 ∧ flagsOf coding >>> 13 = 0 ∧
      (flagsOf coding).testBit 0 = (coding == .codes) ∧
      Template.ofCode ((flagsOf coding >>> 10) % 4) = coding.template ∧
      ((flagsOf coding).testBit 1 = false ∧ (flagsOf coding).testBit 8 = false ∧
        (flagsOf coding).testBit 9 = false ∧ (flagsOf coding).testBit 12 = false) := by
    intro coding
    cases coding with
    | codes => decide
    | decisions template => cases template <;> decide
  obtain ⟨hlt, hreserved, hcodes, htemplate, haggregates, hcontinues, hretains, hrefinement⟩ :=
    hflags coding
  have hcounts : ReadsBytes
      (Reader.readUnsigned 4 >>= fun exportedCount => Reader.readUnsigned 4 >>= fun newCount =>
        pure (headerOf coding exportedCount newCount))
      (toBigEndian 4 exportedCount ++ toBigEndian 4 newCount)
      (headerOf coding exportedCount newCount) :=
    (readsBytes_readUnsigned (by omega)).bind
      ((readsBytes_readUnsigned (by omega)).bind_pure fun newCount =>
        headerOf coding exportedCount newCount)
  refine (readsBytes_readUnsigned hlt).bind ?_
  simp only [hreserved, hcodes, htemplate, haggregates, hcontinues, hretains, hrefinement]
  refine (readsBytes_checkReserved_zero settings).bind_nil ?_
  cases coding with
  | codes =>
    have hselections : Selections.ofFlags (flagsOf .codes) = .ok standardSelections := rfl
    have hread : ReadsBytes (liftM (Selections.ofFlags (flagsOf .codes))) #[] standardSelections :=
      reads_lift hselections
    simp only [pixelsOf, AtPixel.bytesOf, List.foldr_nil, Array.empty_append]
    refine (hread.bind_nil (readsBytes_pure _)).bind_nil ?_
    exact hcounts
  | decisions template =>
    have hwritable := Generic.writable_nominal template false
    have hat := AtPixel.readsBytes_readCausal hwritable.fits hwritable.causal
    rw [hwritable.length] at hat
    refine (readsBytes_pure none).bind_nil (hat.bind ?_)
    exact hcounts

/-! ## Sources -/

/-- All tables with which dictionaries are written exist; they are standard ones. -/
theorem exists_resolve_standardSelections :
    ∃ tables, standardSelections.resolve [] = .ok tables ∧ (∀ q, (tables q).Sound) ∧
      (Huffman.standardTable 4 = .ok (tables .deltaHeight) ∧
        Huffman.standardTable 2 = .ok (tables .deltaWidth)) ∧
      Huffman.standardTable 1 = .ok (tables .collectiveSize) ∧
      Huffman.standardTable 1 = .ok (tables .exportRun) := by
  obtain ⟨t₁, h₁, hs₁⟩ := Huffman.exists_standardTable 1 (by decide) (by decide)
  obtain ⟨t₂, h₂, hs₂⟩ := Huffman.exists_standardTable 2 (by decide) (by decide)
  obtain ⟨t₄, h₄, hs₄⟩ := Huffman.exists_standardTable 4 (by decide) (by decide)
  obtain ⟨t₆, h₆, hs₆⟩ := Huffman.exists_standardTable 6 (by decide) (by decide)
  obtain ⟨t₈, h₈, hs₈⟩ := Huffman.exists_standardTable 8 (by decide) (by decide)
  obtain ⟨t₁₁, h₁₁, hs₁₁⟩ := Huffman.exists_standardTable 11 (by decide) (by decide)
  obtain ⟨t₁₅, h₁₅, hs₁₅⟩ := Huffman.exists_standardTable 15 (by decide) (by decide)
  unfold Selections.resolve standardSelections
  simp only [Huffman.Selection.resolve, h₁, h₂, h₄, h₆, h₈, h₁₁, h₁₅, Bind.bind, Except.bind, pure,
    Except.pure]
  refine ⟨_, rfl, fun q => ?_, ⟨rfl, rfl⟩, rfl, rfl⟩
  cases q <;> assumption

/-- What is read from a source is bounded by the size of its data. -/
theorem limit_le_valueLimit {tape : Tape} {sink : Sink} {source : Source}
    (h : Linked tape sink source) : tape.limit ≤ valueLimit source := by
  cases h with
  | @decisions code t e d c c' h =>
    have hsize := congrArg List.length h.synced.data_eq
    rw [Array.length_toList, Code.bytes, List.length_append, List.length_append,
      List.length_reverse] at hsize
    simp only [Tape.limit, valueLimit]
    omega
  | codes => exact Nat.le_refl _

/-- The data of a dictionary whose header is in `w`. -/
def dataOf (w : Writer) : Sink → Bytes
  | .decisions encoder _ => (w.writeBytes encoder.finish).data
  | .codes writer _ => writer.data

/-- The source of a dictionary that was written is linked with the sink at its start. -/
theorem exists_source (settings : DecodeSettings) {coding : Coding} {exportedCount newCount : Nat}
    (hexported : exportedCount ≤ 0xFFFFFFFF) (hnew : newCount ≤ 0xFFFFFFFF) {w : Writer}
    (hw : w = ⟨headerBytes coding exportedCount newCount, 0⟩) {start sink : Sink}
    (hstart : sinkFor coding w = .ok start) (hleads : start.Leads sink) :
    ∃ r source tape, (Header.read settings).run (Reader.ofBytes (dataOf w sink)) =
        .ok (headerOf coding exportedCount newCount, r) ∧
      sourceOf (headerOf coding exportedCount newCount) newCount [] none r = .ok source ∧
      Linked tape start source ∧ sink.On tape ∧
      (tape.collects = false →
        pixelCoding coding.template = (headerOf coding exportedCount newCount).style.generic) := by
  have hread : ReadsBytes (Header.read settings) w.data (headerOf coding exportedCount newCount) :=
    hw ▸ readsBytes_readHeader hexported hnew
  have hused : w.used = 0 := by rw [hw]
  cases coding with
  | decisions template =>
    obtain rfl := Except.ok.inj hstart
    cases sink with
    | codes => exact hleads.elim
    | decisions f contexts =>
      have hreach : Encoder.start.Reaches f := hleads
      refine ⟨_, _, .decisions f.flushed.code [], hread.run_append f.finish, rfl, ?_,
        completes_flushed_of_reaches hreach, fun _ => rfl⟩
      rw [Reader.tail_append]
      exact .decisions (follows_finish hreach) ⟨rfl, rfl, rfl, rfl⟩
  | codes =>
    obtain ⟨tables, htables, hsound, -⟩ := exists_resolve_standardSelections
    simp only [sinkFor, htables] at hstart
    obtain rfl := Except.ok.inj hstart
    cases sink with
    | decisions => exact hleads.elim
    | codes w' tables' =>
      obtain ⟨rfl, hvalid⟩ := hleads
      obtain ⟨hvalid', hextends⟩ := hvalid (Writer.valid_of_aligned hused)
      have hon : w'.bits <+: toList w'.data := Writer.bits_prefix hvalid'
      have hbits : w.bits = Writer.empty.bits ++ toList w.data := Writer.bits_of_aligned hused
      have hrun := Reads.run_writer (w := .empty) hread (fun _ => Nat.dvd_zero 8) hbits
        (hextends.trans hon)
      refine ⟨_, .codes ⟨w'.data, w.length⟩ tables' (.fixed (max 1 (symbolCodeLength newCount))),
        .codes w'.data, hrun, ?_, .codes (Writer.valid_of_aligned hused) hsound, hon,
        fun h => absurd h (by simp [Tape.collects])⟩
      simp only [sourceOf, headerOf, htables]
      rfl

/-! ## Dictionaries -/

section

variable {symbols : List Bitmap} {exports : List Bool} {coding : Coding} {encoded : Encoded}

/-- The places in the given list of the symbols that are exported. -/
def exportedOf (symbols : List Bitmap) (exports : List Bool) : List Nat :=
  ((orderOf symbols).map (·.2)).filter fun i => exports.getD i false

theorem length_exportedOf : ((exportedOf symbols exports).filterMap fun i => symbols[i]?).length =
    (exportedOf symbols exports).length := by
  rw [List.length_filterMap_eq_countP, List.countP_eq_length]
  intro i hi
  obtain ⟨p, hp, rfl⟩ := List.mem_map.mp (List.mem_of_mem_filter hi)
  rw [getElem?_of_mem_orderOf hp]
  rfl

/-- What is written for a dictionary: its header, its classes and the runs of exported symbols. -/
theorem encode_cases (h : encode symbols exports coding = .ok encoded) :
    (∀ s ∈ symbols, 0 < s.width ∧ 0 < s.height) ∧
      ∃ start middle sink, let exported := exportedOf symbols exports
        let w : Writer := ⟨headerBytes coding exported.length symbols.length, 0⟩
        sinkFor coding w = .ok start ∧
          writeClasses (pixelCoding coding.template) (classesOf ((orderOf symbols).map (·.1))) 0
            start = .ok middle ∧
          writeExported (((orderOf symbols).map (·.2)).map fun i => exports.getD i false) middle =
            .ok sink ∧
          encoded = ⟨dataOf w sink, (orderOf symbols).map (·.2), exported⟩ := by
  unfold encode at h
  split at h
  · exact absurd h (by simp)
  next hany =>
  split at h
  · exact absurd h (by simp)
  split at h
  · exact absurd h (by simp)
  dsimp only at h
  rw [writeFlags_eq] at h
  obtain ⟨start, hstart, h⟩ := bind_eq_ok.mp h
  obtain ⟨middle, hclasses, h⟩ := bind_eq_ok.mp h
  obtain ⟨sink, hexports, h⟩ := bind_eq_ok.mp h
  refine ⟨fun s hs => ?_, start, middle, sink, hstart, hclasses, hexports, ?_⟩
  · simp only [List.any_eq_true, not_exists, not_and, Bool.or_eq_true, beq_iff_eq] at hany
    have := hany s hs
    omega
  · rw [← Except.ok.inj h]
    cases sink <;> rfl

/-- Symbols that are written have sides of moderate length. -/
theorem Storable.side_le (h : Storable symbols) (hencode : encode symbols exports coding = .ok encoded)
    {s : Bitmap} (hs : s ∈ symbols) : s.width ≤ 0x40000000 ∧ s.height ≤ 0x40000000 := by
  obtain ⟨hwidth, hheight⟩ := (encode_cases hencode).1 s hs
  have hmem : s ∈ symbols.filter fun t => t.height == s.height :=
    List.mem_filter.mpr ⟨hs, beq_self_eq_true s.height⟩
  have hsize : s.width * s.height ≤ 0x40000000 :=
    (Nat.mul_le_mul_right _ (width_le_totalWidth hmem)).trans (h.size s hs)
  exact ⟨(Nat.le_mul_of_pos_right _ hheight).trans hsize,
    (Nat.le_mul_of_pos_left _ hwidth).trans hsize⟩

/-- Decoding a dictionary that uses nothing but its own symbols. -/
theorem decode_eq {settings : DecodeSettings} {data : Bytes} {header : Header} {r : Reader}
    {source source' : Source} {exported : Array Bitmap}
    (hread : (Header.read settings).run (Reader.ofBytes data) = .ok (header, r))
    (hcount : header.newCount ≤ 0xFFFFFFFF)
    (hsource : sourceOf header header.newCount [] none r = .ok source)
    (hsymbols : (readSymbols settings header #[] (valueLimit source)).run source =
      .ok (exported, source')) (hretains : header.retains = false) :
    decode settings data #[] [] none = .ok ⟨exported, none⟩ := by
  have hcheck : checkWord ((#[] : Array Bitmap).size + header.newCount) = .ok header.newCount := by
    rw [Array.size_empty, Nat.zero_add]
    exact if_pos (by unfold FitsWord; omega)
  unfold decode
  simp only [hread, hcheck, hsource, hsymbols, hretains, Bind.bind, Except.bind]
  rfl

/-- The symbols that are exported survive encoding and decoding. -/
theorem decode_encode {settings : DecodeSettings} (h : Storable symbols)
    (hsettings : 0x40000000 ≤ settings.maxPixelCount)
    (hencode : encode symbols exports coding = .ok encoded) :
    decode settings encoded.data #[] [] none =
      .ok ⟨(encoded.exported.filterMap fun i => symbols[i]?).toArray, none⟩ := by
  obtain ⟨hpos, start, middle, sink, hstart, hclasses, hexports, rfl⟩ := encode_cases hencode
  have hlength := h.length
  have hperm := orderOf_perm symbols
  have hsorted : ((orderOf symbols).map (·.1)).length = symbols.length := hperm.length_eq
  have hexported : (exportedOf symbols exports).length ≤ symbols.length := by
    have hle := List.length_filter_le (fun i => exports.getD i false) ((orderOf symbols).map (·.2))
    rw [List.length_map] at hle hsorted
    exact hsorted ▸ hle
  have hleads := leads_writeRuns hexports
  obtain ⟨r, source, tape, hread, hsource, hlinked, hon, hparams⟩ := exists_source
    settings (by omega) (by omega) rfl hstart ((leads_writeClasses hclasses).trans hleads)
  have hlimit (spent : Nat) : tape.limit ≤ valueLimit source + spent :=
    (limit_le_valueLimit hlinked).trans (Nat.le_add_right _ _)
  have hproper := (leads_writeClasses hclasses).proper hlinked.proper
  obtain ⟨hflatten, -⟩ := classesOf_spec ((orderOf symbols).map (·.1))
  obtain ⟨source₁, hread₁, hlinked₁⟩ := readClasses_writeClasses hlinked (by rfl)
    hparams (causal_pixelsOf coding) (readableClass_of_storable h hsettings hpos) (Nat.zero_le _)
    #[] hclasses (hleads.on hproper hon) (hlimit _)
  rw [hflatten, hsorted] at hread₁
  have hflags : (((orderOf symbols).map (·.2)).map fun i => exports.getD i false).length =
      ((#[] : Array Bitmap) ++ ((orderOf symbols).map (·.1)).toArray).size := by simp
  obtain ⟨source₂, hread₂, -⟩ := readExported_writeExported hlinked₁ hflags
    (by simp at hsorted ⊢; omega) hexports hon (hlimit _)
  have hselected := selected_order (fun p (hp : p ∈ orderOf symbols) => getElem?_of_mem_orderOf hp)
    fun i => exports.getD i false
  rw [Array.empty_append] at hread₁ hread₂
  rw [hselected] at hread₂
  have hcount : ¬((exportedOf symbols exports).filterMap fun i => symbols[i]?).toArray.size ≠
      (exportedOf symbols exports).length := by
    rw [List.size_toArray, length_exportedOf]
    exact not_not.mpr rfl
  have hsymbols : (readSymbols settings (headerOf coding (exportedOf symbols exports).length
        symbols.length) #[] (valueLimit source)).run source =
      .ok (((exportedOf symbols exports).filterMap fun i => symbols[i]?).toArray, source₂) := by
    refine (run_bind_ok hread₁).trans ((run_bind_ok hread₂).trans ?_)
    exact congrFun (if_neg hcount) source₂
  exact decode_eq hread (by simp only [headerOf]; omega) hsource hsymbols rfl

end

end Symbol
end Bilevel

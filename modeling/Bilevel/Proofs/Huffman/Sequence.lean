import Bilevel.Proofs.Huffman.Coverage
import Bilevel.Proofs.Huffman.Custom

/-!
# Values one after another

The codes of values that are written one after another are read back as the same values, wherever
they start and whatever follows them: every value takes up its own bits and no others. A value that
no used line has is refused, and then nothing is written.

## Main definitions

* `Range.Coded` — the ranges that a stream can have.
* `Table.put` — writing a value as an effect, which shows what a refused call leaves behind.
* `Table.encodeAll`, `Table.decodeMany` — values one after another.

## Main results

* `coded_of_standard`, `coded_of_read` — where such ranges come from.
* `Table.values_roundTrip` — which values are written, and that they are read back.
-/

namespace Bilevel.Huffman

open Bits

/-! ## Ranges of a stream -/

/-- The ends of an open range fit signed numbers, and the places in the range fit 32 bits. -/
def Range.Coded (range : Range) : Prop := range.Fits ∧ range.bits ≤ 32

instance (range : Range) : Decidable range.Coded := inferInstanceAs (Decidable (_ ∧ _))

/-- A table of lines whose ranges a stream can have. -/
def Table.Coded (table : Table) : Prop :=
  ∃ lines, Table.build lines = .ok table ∧ ∀ line ∈ lines, line.range.Coded

theorem coded_of_standard {lines : List Line} (h : lines ∈ Standard.allLines) :
    ∀ line ∈ lines, line.range.Coded := by
  have hall : (Standard.allLines.all fun lines => lines.all fun line =>
      decide (line.range.bits ≤ 32)) = true := by
    decide +kernel
  intro line hline
  exact ⟨fits_of_standard h line hline,
    of_decide_eq_true (List.all_eq_true.mp (List.all_eq_true.mp hall lines h) line hline)⟩

namespace CodeTable

theorem gives_readLines (lengthWidth bitsWidth : Nat) (high low : Int) :
    Gives (fun result => ∀ line ∈ result.1, line.range.Coded)
      (readLines lengthWidth bitsWidth high low) := by
  fun_induction readLines lengthWidth bitsWidth high low with
  | case1 low hlt ih =>
    refine .bind_any fun length => .bind_any fun bits => ?_
    split
    · exact (Gives.throw (P := fun _ => False) _).bind fun _ h => h.elim
    next hle =>
    refine (ih bits).bind fun result hresult => .pure ?_
    intro line hline
    rcases List.mem_cons.mp hline with rfl | hline
    · exact ⟨trivial, Nat.not_lt.mp hle⟩
    · exact hresult line hline
  | case2 low hlt => exact .pure fun line hline => absurd hline List.not_mem_nil

theorem gives_checkSigned (n : Int) :
    Gives FitsSigned (liftM (checkSigned n) : Reading Int) := by
  intro r m r' hread
  obtain ⟨hcheck, -⟩ := run_lift_eq_ok.mp hread
  obtain ⟨hfits, rfl⟩ := checkSigned_eq_ok.mp hcheck
  exact hfits

/-- The lines of a stream have ranges that are coded. -/
theorem gives_readAll : Gives (fun lines => ∀ line ∈ lines, line.range.Coded) readAll := by
  refine .bind_any fun flags => ?_
  by_cases hreserved : flags.testBit 7 = true
  · simp only [hreserved, if_true]
    exact (Gives.throw (P := fun _ => False) _).bind fun _ h => h.elim
  simp only [hreserved]
  refine .bind_any fun low => .bind_any fun high => ?_
  refine (gives_readLines _ _ high low).bind fun (lines, last) hlines => ?_
  refine (gives_checkSigned last).bind fun last hlast => ?_
  refine (gives_checkSigned (low - 1)).bind fun below hbelow => ?_
  refine .bind_any fun lowerLength => .bind_any fun upperLength => ?_
  have hlower : (Range.lower below).Coded := ⟨hbelow, Nat.le_refl 32⟩
  have hupper : (Range.upper last).Coded := ⟨hlast, Nat.le_refl 32⟩
  have hoob : Range.outOfBand.Coded := ⟨trivial, Nat.zero_le 32⟩
  split
  · refine .bind_any fun oobLength => .pure (List.forall_mem_append.mpr ⟨hlines, ?_⟩)
    simp [hlower, hupper, hoob]
  · refine .pure (List.forall_mem_append.mpr ⟨hlines, ?_⟩)
    simp [hlower, hupper]

end CodeTable

/-! ## Values -/

/-- A used line has the value. -/
def Covered (lines : List Line) (value : Option Int) : Prop :=
  ∃ line ∈ lines, line.used = true ∧ line.range.Holds value

/-- The value fits a signed number, unless it is out of band. -/
def ValueFits (value : Option Int) : Prop := ∀ n ∈ value, FitsSigned n

instance (range : Range) : (value : Option Int) → Decidable (range.Holds value)
  | none => inferInstanceAs (Decidable (range = .outOfBand))
  | some n => inferInstanceAs (Decidable (range.covers n = true))

instance (lines : List Line) (value : Option Int) : Decidable (Covered lines value) :=
  inferInstanceAs (Decidable (∃ line ∈ lines, line.used = true ∧ line.range.Holds value))

instance : (value : Option Int) → Decidable (ValueFits value)
  | none => .isTrue fun _ h => nomatch h
  | some n =>
    decidable_of_iff (FitsSigned n) ⟨fun h _ hn => Option.some.inj hn ▸ h, fun h => h n rfl⟩

namespace Table

theorem coded_of_read {data : Bytes} {table : Table} (h : Table.read data = .ok table) :
    table.Coded := by
  obtain ⟨⟨lines, r⟩, hlines, hbuild⟩ := bind_eq_ok.mp h
  exact ⟨lines, hbuild, CodeTable.gives_readAll _ _ _ hlines⟩

theorem coded_of_standardTable {number : Nat} {table : Table}
    (h : standardTable number = .ok table) : table.Coded := by
  obtain ⟨lines, hmem, hbuild⟩ := exists_lines_of_standardTable h
  exact ⟨lines, hbuild, coded_of_standard hmem⟩

/-- Write a value as an effect on a writer. What was written stays if the call is refused. -/
def put (table : Table) (value : Option Int) : ExceptT EncodeError (StateM Writer) Unit := do
  match table.entryFor value with
  | none => throw .valueNotRepresentable
  | some entry =>
    let range := entry.line.range
    modify fun w => w.writeBits entry.line.length entry.code
    modify fun w => w.writeBits range.bits (range.placeOf value)

/-- Write values one after another. -/
def encodeAll (table : Table) : List (Option Int) → Writer → Except EncodeError Writer
  | [], w => .ok w
  | value :: values, w => do
    let w ← table.encode w value
    table.encodeAll values w

/-- Decode values one after another. -/
def decodeMany (table : Table) : (count : Nat) → Reading (List (Option Int))
  | 0 => return []
  | count + 1 => do
    let value ← table.decode
    return value :: (← table.decodeMany count)

section

variable {lines : List Line} {table : Table}

/-- Writing as an effect does what writing does, and a refused call leaves the writer alone. -/
theorem run_put (table : Table) (value : Option Int) (w : Writer) :
    (table.put value).run w = match table.encode w value with
      | .ok w' => (.ok (), w')
      | .error e => (.error e, w) := by
  unfold put encode
  cases table.entryFor value with
  | none => rfl
  | some entry => rfl

theorem encode_eq_error (h : build lines = .ok table) {value : Option Int}
    (hvalue : ¬Covered lines value) (w : Writer) :
    table.encode w value = .error .valueNotRepresentable := by
  cases hencode : table.encode w value with
  | ok w' => exact absurd ((exists_encode_iff h w value).mp ⟨w', hencode⟩) hvalue
  | error e =>
    unfold encode at hencode
    split at hencode
    · exact hencode.symm
    · cases hencode

/-- Values that lines have are written one after another, and are read back. -/
theorem exists_encodeAll (h : build lines = .ok table) (hlines : ∀ line ∈ lines, line.range.Fits)
    {values : List (Option Int)} (hvalues : ∀ value ∈ values, ValueFits value ∧ Covered lines value)
    {w : Writer} (hw : w.Valid) :
    ∃ w' bits, table.encodeAll values w = .ok w' ∧ w'.Valid ∧ w'.bits = w.bits ++ bits ∧
      Reads False (table.decodeMany values.length) bits values := by
  induction values generalizing w with
  | nil => exact ⟨w, [], rfl, hw, (List.append_nil _).symm, reads_pure []⟩
  | cons value values ih =>
    obtain ⟨⟨hfits, hcovered⟩, hrest⟩ := List.forall_mem_cons.mp hvalues
    obtain ⟨w₁, hencode⟩ := (exists_encode_iff h w value).mpr hcovered
    obtain ⟨bits, hw₁, hbits, hread⟩ := exists_reads_decode (sound_build hlines h) hw hfits hencode
    obtain ⟨w₂, bits', hencode', hw₂, hbits', hread'⟩ := ih hrest hw₁
    refine ⟨w₂, bits ++ bits', (bind_eq_ok.mpr ⟨w₁, hencode, hencode'⟩), hw₂, ?_, ?_⟩
    · rw [hbits', hbits, List.append_assoc]
    · rw [← List.append_nil bits']
      exact hread.bind (hread'.bind (reads_pure _) False.elim) False.elim

end

/-- A table writes exactly the values that its used lines have; a call with another value is
refused and writes nothing. Whatever values are written one after another, wherever they start and
whatever bits follow them, as many values that are decoded there are the same, and what is left are
the bits that follow. This holds of all tables whose lines have ranges that a stream can have, and
these include the standard tables and all tables that are read from a stream. -/
theorem values_roundTrip :
    ((∀ number table, standardTable number = .ok table → table.Coded) ∧
      ∀ data table, Table.read data = .ok table → table.Coded) ∧
    ∀ lines table, (∀ line ∈ lines, line.range.Coded) → build lines = .ok table →
      (∀ value w, (Covered lines value → ∃ w', table.encode w value = .ok w' ∧
          (table.put value).run w = (.ok (), w')) ∧
        (¬Covered lines value → table.encode w value = .error .valueNotRepresentable ∧
          (table.put value).run w = (.error .valueNotRepresentable, w))) ∧
      ∀ values, (∀ value ∈ values, ValueFits value ∧ Covered lines value) →
        ∀ w : Writer, w.Valid → ∃ w' bits, table.encodeAll values w = .ok w' ∧ w'.Valid ∧
          w'.bits = w.bits ++ bits ∧
          ∀ (r : Reader) (following : List Bool), r.position ≤ 8 * r.data.size →
            r.rest = bits ++ following →
            table.decodeMany values.length r = .ok (values, r.skip bits.length) ∧
              (r.skip bits.length).rest = following := by
  refine ⟨⟨fun _ _ => coded_of_standardTable, fun _ _ => coded_of_read⟩, ?_⟩
  intro lines table hlines h
  refine ⟨fun value w => ⟨fun hvalue => ?_, fun hvalue => ?_⟩, fun values hvalues w hw => ?_⟩
  · obtain ⟨w', hencode⟩ := (exists_encode_iff h w value).mpr hvalue
    exact ⟨w', hencode, by rw [run_put, hencode]⟩
  · have hencode := encode_eq_error h hvalue w
    exact ⟨hencode, by rw [run_put, hencode]⟩
  · obtain ⟨w', bits, hencode, hw', hbits, hread⟩ :=
      exists_encodeAll h (fun line hline => (hlines line hline).1) hvalues hw
    refine ⟨w', bits, hencode, hw', hbits, fun r following hle hrest => ⟨?_, ?_⟩⟩
    · exact hread r following hle False.elim hrest
    · exact Reader.rest_skip_append hrest

/-- Lines whose ranges overlap, one of them as large as can be, and one that isn't used. -/
def overlapping : List Line :=
  [⟨3, .lower 5⟩, ⟨1, .values 0 32⟩, ⟨0, .values 7 0⟩, ⟨3, .upper (-3)⟩, ⟨3, .outOfBand⟩]

/-- Values at both ends of the signed numbers, and such that several lines have. -/
def extremes : List (Option Int) := [some (-0x80000000), some 4, none, some (-3), some 0x7FFFFFFF]

/-- The values are written behind three bits of a byte. -/
theorem values_roundTrip_overlapping : (∀ line ∈ overlapping, line.range.Coded) ∧
    (∀ value ∈ extremes, ValueFits value ∧ Covered overlapping value) ∧
    ∃ table w' r', build overlapping = .ok table ∧ table.encodeAll extremes ⟨#[0xA0], 3⟩ = .ok w' ∧
      table.decodeMany 5 ⟨w'.data, 3⟩ = .ok (extremes, r') := by
  have hlines : ∀ line ∈ overlapping, line.range.Coded := by decide
  have hvalues : ∀ value ∈ extremes, ValueFits value ∧ Covered overlapping value := by decide
  have hbuild : (build overlapping).isOk := by decide +kernel
  obtain ⟨table, h⟩ := exists_of_isOk hbuild
  have hw : Writer.Valid ⟨#[0xA0], 3⟩ := ⟨by decide, fun _ => by decide⟩
  obtain ⟨w', bits, hencode, hw', hbits, hdecode⟩ :=
    (values_roundTrip.2 overlapping table hlines h).2 extremes hvalues _ hw
  obtain ⟨padding, hpadding⟩ := Writer.bits_prefix hw'
  have hstart : Writer.bits ⟨#[0xA0], 3⟩ = [true, false, true] := by decide
  rw [hbits, hstart] at hpadding
  have hrest : Reader.rest ⟨w'.data, 3⟩ = bits ++ padding := by
    rw [Reader.rest, ← hpadding]
    rfl
  have hle : 3 ≤ 8 * w'.data.size := by
    rw [← length_toList, ← hpadding]
    simp
  exact ⟨hlines, hvalues, table, w', _, h, hencode, (hdecode _ padding hle hrest).1⟩

end Table
end Bilevel.Huffman

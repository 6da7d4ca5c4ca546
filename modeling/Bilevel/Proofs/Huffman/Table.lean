import Bilevel.Huffman.Selection
import Bilevel.Proofs.Huffman.Tree
import Bilevel.Proofs.Steps

/-!
# Coding values with Huffman tables

A value that a table can write is read back from its code word and its place in the range of its
line. This holds for all tables that are built from lines whose ends fit signed numbers, and these
include the standard tables.

## Main results

* `Table.exists_reads_decode` — values are read back.
* `exists_standardTable` — all standard tables exist.
-/

namespace Bilevel.Huffman

open Bits

/-! ## Ranges -/

namespace Range

/-- The ends of an open range fit signed numbers. -/
def Fits : Range → Prop
  | lower high => FitsSigned high
  | upper low => FitsSigned low
  | values _ _ | outOfBand => True

instance (range : Range) : Decidable range.Fits := by
  cases range <;> unfold Fits <;> infer_instance

/-- A range has a given value, the out-of-band value being `none`. -/
def Holds (range : Range) : Option Int → Prop
  | none => range = outOfBand
  | some n => range.covers n = true

theorem placeOf_spec {range : Range} {value : Option Int} (hfits : range.Fits)
    (hvalue : ∀ n ∈ value, FitsSigned n) (h : range.Holds value) :
    range.placeOf value < 2 ^ range.bits ∧ range.valueAt (range.placeOf value) = value := by
  cases value with
  | none =>
    obtain rfl : range = outOfBand := h
    exact ⟨by decide, rfl⟩
  | some n =>
    have hn := hvalue n rfl
    unfold FitsSigned at hn
    cases range with
    | values low bits =>
      simp only [Holds, covers, Bool.and_eq_true, decide_eq_true_eq, Nat.one_shiftLeft] at h
      simp only [placeOf, Range.bits, valueAt, Option.some.injEq]
      omega
    | lower high =>
      simp only [Holds, covers, decide_eq_true_eq] at h
      simp only [Fits, FitsSigned] at hfits
      simp only [placeOf, Range.bits, valueAt, Option.some.injEq]
      omega
    | upper low =>
      simp only [Holds, covers, decide_eq_true_eq] at h
      simp only [Fits, FitsSigned] at hfits
      simp only [placeOf, Range.bits, valueAt, Option.some.injEq]
      omega
    | outOfBand => exact absurd h (by simp [Holds, covers])

end Range

/-! ## Tables -/

namespace Table

theorem map_line_assignCodes (next : Array Nat) (lines : List Line) :
    (assignCodes next lines).map (·.line) = lines := by
  induction lines generalizing next with
  | nil => rfl
  | cons line lines ih => exact congrArg (line :: ·) (ih _)

/-- The lines of a table are those that it is built from. -/
theorem map_line_build {lines : List Line} {table : Table} (h : build lines = .ok table) :
    table.entries.map (·.line) = lines := by
  unfold build at h
  split at h
  · dsimp only at h
    split at h
    · obtain rfl := Except.ok.inj h
      exact map_line_assignCodes _ lines
    · exact absurd h (by simp)
  · exact absurd h (by simp)

/-- What holds of a table: its used code words can be looked up, and its open ranges have ends that
fit signed numbers. -/
structure Sound (table : Table) : Prop where
  lookup : ∀ entry ∈ table.entries, entry.line.used = true →
    table.tree.lookup entry.bits = some entry.line.range
  fits : ∀ entry ∈ table.entries, entry.line.range.Fits

theorem sound_build {lines : List Line} {table : Table} (hlines : ∀ line ∈ lines, line.range.Fits)
    (h : build lines = .ok table) : table.Sound := by
  have hfits : ∀ entry ∈ table.entries, entry.line.range.Fits := fun entry hentry =>
    hlines _ (map_line_build h ▸ List.mem_map_of_mem hentry)
  unfold build at h
  split at h
  · dsimp only at h
    split at h
    · next tree htree =>
      obtain rfl := Except.ok.inj h
      exact ⟨(lookup_of_insertAll htree).1, hfits⟩
    · exact absurd h (by simp)
  · exact absurd h (by simp)

/-- The line with which a value is written is used and has the value. -/
theorem entryFor_spec {table : Table} {value : Option Int} {entry : Entry}
    (h : table.entryFor value = some entry) :
    entry ∈ table.entries ∧ entry.line.used = true ∧ entry.line.range.Holds value := by
  cases value with
  | none =>
    have hfound := List.find?_some h
    rw [Bool.and_eq_true] at hfound
    exact ⟨List.mem_of_find?_eq_some h, hfound.1, eq_of_beq hfound.2⟩
  | some n =>
    simp only [entryFor, Option.orElse_eq_orElse, Option.orElse_eq_or] at h
    rcases Option.or_eq_some_iff.mp h with h | ⟨_, h⟩
    · have hfound := List.find?_some h
      rw [Bool.and_eq_true, Bool.and_eq_true] at hfound
      exact ⟨List.mem_of_find?_eq_some h, hfound.1.1, hfound.2⟩
    · have hfound := List.find?_some h
      rw [Bool.and_eq_true] at hfound
      exact ⟨List.mem_of_find?_eq_some h, hfound.1, hfound.2⟩

/-- Values that are written are read back. -/
theorem exists_reads_decode {table : Table} (hsound : table.Sound) {w w' : Writer}
    (hw : w.Valid) {value : Option Int} (hvalue : ∀ n ∈ value, FitsSigned n)
    (h : table.encode w value = .ok w') :
    ∃ bits, w'.Valid ∧ w'.bits = w.bits ++ bits ∧ Reads False table.decode bits value := by
  unfold encode at h
  split at h
  · exact absurd h (by simp)
  · next entry hentry =>
    obtain ⟨hmem, hused, hholds⟩ := entryFor_spec hentry
    obtain ⟨hlt, hplace⟩ := entry.line.range.placeOf_spec (hsound.fits entry hmem) hvalue hholds
    obtain rfl := Except.ok.inj h
    obtain ⟨hbits, hvalid⟩ := Writer.bits_writeBits hw entry.line.length entry.code
    obtain ⟨hbits', hvalid'⟩ := Writer.bits_writeBits hvalid entry.line.range.bits
      (entry.line.range.placeOf value)
    refine ⟨entry.bits ++ lowBits entry.line.range.bits (entry.line.range.placeOf value), hvalid',
      ?_, ?_⟩
    · rw [hbits', hbits, List.append_assoc]
      rfl
    · refine (Tree.reads_read (hsound.lookup entry hmem hused)).bind ?_ False.elim
      rw [← List.append_nil (lowBits _ _)]
      refine (reads_readBits hlt).bind ?_ False.elim
      rw [hplace]
      cases value with
      | none => exact reads_pure none
      | some n =>
        have hcheck : checkSigned n = .ok n := if_pos (hvalue n rfl)
        exact (reads_lift hcheck).bind_nil (reads_pure (some n))

/-- A value that is not out of band. -/
theorem reads_decodeValue {table : Table} {bits : List Bool} {n : Int}
    (h : Reads False table.decode bits (some n)) : Reads False table.decodeValue bits n := by
  rw [← List.append_nil bits]
  exact h.bind (reads_pure n) False.elim

end Table

/-! ## Standard tables -/

theorem exists_build_of_standard {lines : List Line} (h : lines ∈ Standard.allLines) :
    ∃ table, Table.build lines = .ok table := by
  have hall : (Standard.allLines.all fun lines => (Table.build lines).toOption.isSome) = true := by
    decide +kernel
  have hsome := List.all_eq_true.mp hall lines h
  cases hbuild : Table.build lines with
  | ok table => exact ⟨table, rfl⟩
  | error e =>
    rw [hbuild] at hsome
    exact absurd hsome (by simp [Except.toOption])

theorem fits_of_standard {lines : List Line} (h : lines ∈ Standard.allLines) :
    ∀ line ∈ lines, line.range.Fits := by
  have hall : (Standard.allLines.all fun lines => lines.all fun line => line.range.Fits) = true := by
    decide +kernel
  exact fun line hline =>
    of_decide_eq_true (List.all_eq_true.mp (List.all_eq_true.mp hall lines h) line hline)

/-- All standard tables exist. -/
theorem exists_standardTable (number : Nat) (h : 0 < number) (h' : number ≤ 15) :
    ∃ table, standardTable number = .ok table ∧ table.Sound := by
  have hlt : number - 1 < Standard.allLines.length := by
    change number - 1 < 15
    omega
  have hmem : Standard.allLines[number - 1] ∈ Standard.allLines := List.getElem_mem hlt
  obtain ⟨table, htable⟩ := exists_build_of_standard hmem
  refine ⟨table, ?_, Table.sound_build (fits_of_standard hmem) htable⟩
  unfold standardTable Standard.tables
  rw [if_neg (by omega), Array.getD_eq_getD_getElem?, List.getElem?_toArray, List.getElem?_map,
    List.getElem?_eq_getElem hlt, Option.map_some, Option.getD_some, htable]

/-! ## Where tables come from -/

/-- The table has the code words of some lines. -/
def Table.Built (table : Table) : Prop := ∃ lines, Table.build lines = .ok table

/-- The standard tables have the code words of their lines. -/
theorem exists_lines_of_standardTable {number : Nat} {table : Table}
    (h : standardTable number = .ok table) :
    ∃ lines ∈ Standard.allLines, Table.build lines = .ok table := by
  unfold standardTable at h
  split at h
  · cases h
  · rw [Standard.tables, Array.getD_eq_getD_getElem?, List.getElem?_toArray, List.getElem?_map] at h
    cases hlines : Standard.allLines[number - 1]? with
    | none =>
      rw [hlines] at h
      cases h
    | some lines =>
      rw [hlines] at h
      exact ⟨lines, List.mem_of_getElem? hlines, h⟩

theorem built_of_standardTable {number : Nat} {table : Table}
    (h : standardTable number = .ok table) : table.Built := by
  obtain ⟨lines, -, hbuild⟩ := exists_lines_of_standardTable h
  exact ⟨lines, hbuild⟩

theorem Selection.built_resolve {selection : Selection} {tables rest : List Table} {table : Table}
    (htables : ∀ t ∈ tables, t.Built) (h : selection.resolve tables = .ok (table, rest)) :
    table.Built ∧ ∀ t ∈ rest, t.Built := by
  cases selection with
  | standard number =>
    obtain ⟨t, ht, h⟩ := bind_eq_ok.mp h
    cases h
    exact ⟨built_of_standardTable ht, htables⟩
  | custom =>
    cases tables with
    | nil => cases h
    | cons t rest =>
      cases h
      exact ⟨htables table List.mem_cons_self,
        fun t ht => htables t (List.mem_cons_of_mem table ht)⟩

end Bilevel.Huffman

import Bilevel.Proofs.Huffman.Canonical
import Bilevel.Proofs.Huffman.Custom

/-!
# Tables that a stream can define

A table can be written unless a range is too large or ends too far up. What was written is read as
the table of its lines, provided that there is a value below its lowest one and that its code words
exist; otherwise it can't be read.

## Main definitions

* `CodeTable.startOf` — where the range of a line starts.

## Main results

* `CodeTable.lines_eq` — the lines of a table, each in its place.
* `CodeTable.exists_write_iff` — which tables can be written.
* `CodeTable.stored_roundTrip` — which of them can be read, and as what.
-/

namespace Bilevel.Huffman

/-! ## Lengths of code words -/

section

variable {lines lines' : List Line}

theorem countLength_congr (h : lines.map (·.length) = lines'.map (·.length)) (m : Nat) :
    countLength lines m = countLength lines' m := by
  have hcount (lines : List Line) :
      lines.countP (·.length == m) = (lines.map (·.length)).countP (· == m) := by
    rw [List.countP_map]
    rfl
  rw [countLength, countLength, hcount, hcount, h]

theorem firstCode_congr (h : lines.map (·.length) = lines'.map (·.length)) (m : Nat) :
    firstCode lines m = firstCode lines' m := by
  induction m with
  | zero => rfl
  | succ m ih => rw [firstCode, firstCode, ih, countLength_congr h]

/-- Whether code words have room depends on their lengths alone. -/
theorem hasRoom_congr (h : lines.map (·.length) = lines'.map (·.length)) :
    hasRoom lines = hasRoom lines' := by
  have hall (lines : List Line) :
      lines.all (·.length ≤ maxLength) = (lines.map (·.length)).all (· ≤ maxLength) := by
    rw [List.all_map]
    rfl
  simp only [hasRoom, hall, h, firstCode_congr h, countLength_congr h]

end

namespace CodeTable

/-! ## Places of ranges -/

/-- The number of values that some lines have together. -/
def span (steps : List Step) : Int := (steps.map fun step => (2 : Int) ^ step.bits).sum

/-- Where the range of line `k` starts: behind the ranges of the lines before it. -/
def startOf (t : CodeTable) (k : Nat) : Int := t.low + span (t.steps.take k)

@[simp] theorem span_nil : span [] = 0 := rfl

@[simp] theorem span_cons (step : Step) (steps : List Step) :
    span (step :: steps) = (2 : Int) ^ step.bits + span steps := rfl

theorem cast_one_shiftLeft (bits : Nat) : ((1 <<< bits : Nat) : Int) = 2 ^ bits := by
  rw [Nat.one_shiftLeft]
  norm_cast

theorem endOf_eq (low : Int) (steps : List Step) : endOf low steps = low + span steps := by
  induction steps generalizing low with
  | nil => exact (Int.add_zero low).symm
  | cons step steps ih => rw [endOf, ih, span_cons, cast_one_shiftLeft, Int.add_assoc]

theorem stepLines_eq (low : Int) (steps : List Step) : stepLines low steps =
    steps.mapIdx fun k step => ⟨step.length, .values (low + span (steps.take k)) step.bits⟩ := by
  induction steps generalizing low with
  | nil => rfl
  | cons step steps ih =>
    rw [stepLines, cast_one_shiftLeft, ih, List.mapIdx_cons]
    simp [Int.add_assoc]

/-- The lines of a table, each in its place. -/
theorem lines_eq (t : CodeTable) : t.lines =
    (t.steps.mapIdx fun k step => ⟨step.length, .values (t.startOf k) step.bits⟩) ++
      [⟨t.lowerLength, .lower (t.low - 1)⟩, ⟨t.upperLength, .upper (t.startOf t.steps.length)⟩] ++
      t.oobLength.toList.map fun length => ⟨length, .outOfBand⟩ := by
  rw [lines, stepLines_eq, endOf_eq, startOf, List.take_length]
  rfl

theorem map_length_stepLines (low : Int) (steps : List Step) :
    (stepLines low steps).map (·.length) = steps.map (·.length) := by
  induction steps generalizing low with
  | nil => rfl
  | cons step steps ih => exact congrArg (step.length :: ·) (ih _)

theorem map_length_lines (t : CodeTable) : t.lines.map (·.length) = t.lengths := by
  simp [lines, lengths, map_length_stepLines, Function.comp_def]

/-- The end of the ranges can be written if no range ends too far up. -/
theorem exists_endOf?_iff {low : Int} {steps : List Step} (hlow : low ≤ 0x7FFFFFFF) :
    (∃ high, endOf? low steps = some high) ↔
      ∀ k ≤ steps.length, low + span (steps.take k) ≤ 0x7FFFFFFF := by
  induction steps generalizing low with
  | nil => simp [endOf?, hlow]
  | cons step steps ih =>
    have hnext : (∀ k ≤ (step :: steps).length, low + span ((step :: steps).take k) ≤ 0x7FFFFFFF) ↔
        ∀ k ≤ steps.length, low + 2 ^ step.bits + span (steps.take k) ≤ 0x7FFFFFFF := by
      constructor
      · intro h k hk
        simpa [Int.add_assoc] using h (k + 1) (Nat.succ_le_succ hk)
      · intro h k hk
        cases k with
        | zero => simpa using hlow
        | succ k => simpa [Int.add_assoc] using h k (Nat.le_of_succ_le_succ hk)
    rw [hnext, endOf?, cast_one_shiftLeft]
    split
    · next hle => exact ih hle
    · next hlt =>
      constructor
      · rintro ⟨high, hhigh⟩
        cases hhigh
      · intro h
        exact absurd (by simpa using h 0 (Nat.zero_le _)) hlt

/-! ## Writing -/

theorem fieldWidth_le {n : Nat} (h : n < 256) : fieldWidth n ≤ 8 := by
  unfold fieldWidth
  split
  · decide
  · next hpos => exact (Nat.log2_lt hpos).mpr h

theorem foldl_max_le {widths : List Nat} {start m : Nat} (hstart : start ≤ m)
    (h : ∀ width ∈ widths, width ≤ m) : widths.foldl max start ≤ m := by
  induction widths generalizing start with
  | nil => exact hstart
  | cons width widths ih =>
    obtain ⟨hwidth, hwidths⟩ := List.forall_mem_cons.mp h
    exact ih (Nat.max_le.mpr ⟨hstart, hwidth⟩) hwidths

theorem commonWidth_le {ns : List Nat} (h : ∀ n ∈ ns, n < 256) : commonWidth ns ≤ 8 := by
  refine foldl_max_le (by decide) fun width hwidth => ?_
  obtain ⟨n, hn, rfl⟩ := List.mem_map.mp hwidth
  exact fieldWidth_le (h n hn)

/-- A table can be written unless a range is too large or ends too far up. -/
theorem exists_write_iff {t : CodeTable} (hlow : t.low ≤ 0x7FFFFFFF)
    (hlengths : ∀ length ∈ t.lengths, length < 256) : (∃ data, t.write = .ok data) ↔
      (∀ step ∈ t.steps, step.bits ≤ 32) ∧ ∀ k ≤ t.steps.length, t.startOf k ≤ 0x7FFFFFFF := by
  constructor
  · rintro ⟨data, h⟩
    obtain ⟨⟨-, -, hbits⟩, hend, -⟩ := write_spec h
    exact ⟨hbits, (exists_endOf?_iff hlow).mp ⟨_, hend⟩⟩
  · rintro ⟨hbits, hends⟩
    obtain ⟨high, hhigh⟩ := (exists_endOf?_iff hlow).mpr hends
    have hlengthWidth : commonWidth t.lengths ≤ 8 := commonWidth_le hlengths
    have hbitsWidth : commonWidth (t.steps.map (·.bits)) ≤ 8 := by
      refine commonWidth_le fun n hn => ?_
      obtain ⟨step, hstep, rfl⟩ := List.mem_map.mp hn
      exact (hbits step hstep).trans_lt (by decide)
    have hnarrow : ¬(8 < commonWidth t.lengths ∨ 8 < commonWidth (t.steps.map (·.bits)) ∨
        (t.steps.any fun step => decide (maxBits < step.bits)) = true) := by
      simp only [not_or, Nat.not_lt, List.any_eq_true, decide_eq_true_eq, not_exists, not_and]
      exact ⟨hlengthWidth, hbitsWidth, hbits⟩
    exact ⟨_, by rw [write, if_neg hnarrow, hhigh]⟩

/-! ## Reading -/

/-- A table can be written exactly if its ranges aren't too large and don't end too far up. What was
written can be read exactly if there is a value below the lowest one and there are code words of
these lengths, and is then read as the table of its lines: ranges that follow one another from the
lowest value on, all values below them, all values above them, and the out-of-band value if the
table has it. -/
theorem stored_roundTrip (t : CodeTable) (hlow : FitsSigned t.low)
    (hlengths : ∀ length ∈ t.lengths, length < 256) :
    ((∃ data, t.write = .ok data) ↔
      (∀ step ∈ t.steps, step.bits ≤ 32) ∧ ∀ k ≤ t.steps.length, t.startOf k ≤ 0x7FFFFFFF) ∧
    ∀ data, t.write = .ok data →
      (∀ lines : List Line, lines.map (·.length) = t.lengths →
        ((∃ table, Table.read data = .ok table) ↔
          -0x80000000 < t.low ∧ ∃ table, Table.build lines = .ok table)) ∧
      ∀ table, Table.read data = .ok table →
        Table.build ((t.steps.mapIdx fun k step =>
            ⟨step.length, .values (t.startOf k) step.bits⟩) ++
          [⟨t.lowerLength, .lower (t.low - 1)⟩,
            ⟨t.upperLength, .upper (t.startOf t.steps.length)⟩] ++
          t.oobLength.toList.map fun length => ⟨length, .outOfBand⟩) = .ok table := by
  refine ⟨exists_write_iff hlow.2 hlengths, fun data h => ⟨fun lines hlines => ?_, ?_⟩⟩
  · rw [Table.exists_build_iff, hasRoom_congr (hlines.trans t.map_length_lines.symm),
      ← Table.exists_build_iff]
    constructor
    · rintro ⟨table, hread⟩
      obtain ⟨hbelow, hbuild⟩ := Table.readable_of_read h hlow hread
      exact ⟨by have := hbelow.1; omega, table, hbuild⟩
    · rintro ⟨hpos, table, hbuild⟩
      have hbelow : FitsSigned (t.low - 1) := ⟨by omega, by have := hlow.2; omega⟩
      exact ⟨table, (Table.read_write h hbelow hlow).trans hbuild⟩
  · intro table hread
    rw [← lines_eq]
    exact (Table.readable_of_read h hlow hread).2

/-- A table whose ranges end at the last signed number. One of its lines isn't used. -/
def topmost : CodeTable where
  low := 0x7FFFFFFF - 17
  steps := [⟨2, 4⟩, ⟨0, 0⟩]
  lowerLength := 2
  upperLength := 3
  oobLength := some 3

theorem stored_roundTrip_topmost : ∃ data table, topmost.write = .ok data ∧
    Table.read data = .ok table ∧
    Table.build [⟨2, .values (0x7FFFFFFF - 17) 4⟩, ⟨0, .values (0x7FFFFFFF - 1) 0⟩,
      ⟨2, .lower (0x7FFFFFFF - 18)⟩, ⟨3, .upper 0x7FFFFFFF⟩, ⟨3, .outOfBand⟩] = .ok table := by
  obtain ⟨hwrite, hread⟩ := stored_roundTrip topmost (by decide) (by decide)
  obtain ⟨data, hdata⟩ := hwrite.mpr ⟨by decide, by decide⟩
  obtain ⟨hiff, hlines⟩ := hread data hdata
  have hroom : hasRoom topmost.lines = true := by decide
  obtain ⟨table, htable⟩ := (hiff topmost.lines topmost.map_length_lines).mpr
    ⟨by decide, Table.exists_build_iff.mpr hroom⟩
  exact ⟨data, table, hdata, htable, hlines table htable⟩

end CodeTable
end Bilevel.Huffman

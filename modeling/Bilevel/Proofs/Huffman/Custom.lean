import Bilevel.Huffman.Custom
import Bilevel.Proofs.Huffman.Table

/-!
# Reading back tables of a stream

The lines of a table that a stream defines are read back as they were written, so the stream gives
the table that is built from these lines.

## Main definitions

* `CodeTable.lines` — the lines of a table that a stream defines.

## Main results

* `Table.read_write` — reading what was written builds the table of these lines.
* `Table.readable_of_read` — what it takes for a table to be read.
-/

namespace Bilevel.Huffman

open Bits

namespace CodeTable

/-! ## Lines -/

/-- The lines whose ranges follow one another from `low` on. -/
def stepLines (low : Int) : List Step → List Line
  | [] => []
  | step :: rest =>
    ⟨step.length, .values low step.bits⟩ :: stepLines (low + (1 <<< step.bits : Nat)) rest

/-- The end of ranges that follow one another from `low` on. -/
def endOf (low : Int) : List Step → Int
  | [] => low
  | step :: rest => endOf (low + (1 <<< step.bits : Nat)) rest

/-- The lines of a table. -/
def lines (t : CodeTable) : List Line :=
  stepLines t.low t.steps ++ [⟨t.lowerLength, .lower (t.low - 1)⟩,
    ⟨t.upperLength, .upper (endOf t.low t.steps)⟩] ++
      t.oobLength.toList.map fun length => ⟨length, .outOfBand⟩

theorem le_endOf (low : Int) (steps : List Step) : low ≤ endOf low steps := by
  induction steps generalizing low with
  | nil => exact Int.le_refl low
  | cons step steps ih =>
    have := ih (low + (1 <<< step.bits : Nat))
    exact (Int.le_add_of_nonneg_right (Int.natCast_nonneg _)).trans this

theorem low_lt_endOf (low : Int) (step : Step) (steps : List Step) :
    low < endOf low (step :: steps) := by
  have hpos : 0 < 1 <<< step.bits := Nat.one_shiftLeft step.bits ▸ Nat.two_pow_pos step.bits
  have := le_endOf (low + (1 <<< step.bits : Nat)) steps
  simp only [endOf]
  omega

/-- The end that is written is that of the ranges, and it fits a signed number. -/
theorem endOf?_spec {low high : Int} {steps : List Step} (h : endOf? low steps = some high) :
    high = endOf low steps ∧ (low ≤ 0x7FFFFFFF → high ≤ 0x7FFFFFFF) := by
  induction steps generalizing low with
  | nil =>
    obtain rfl := Option.some.inj h
    exact ⟨rfl, id⟩
  | cons step steps ih =>
    simp only [endOf?] at h
    split at h
    · next hle =>
      obtain ⟨hhigh, hfits⟩ := ih h
      exact ⟨hhigh, fun _ => hfits hle⟩
    · exact absurd h (by simp)

/-! ## Widths of fields -/

theorem lt_fieldWidth (n : Nat) : n < 2 ^ fieldWidth n := by
  unfold fieldWidth
  split
  · omega
  · exact Nat.lt_log2_self

theorem le_foldl_max (widths : List Nat) (start : Nat) :
    start ≤ widths.foldl max start ∧ ∀ width ∈ widths, width ≤ widths.foldl max start := by
  induction widths generalizing start with
  | nil => exact ⟨Nat.le_refl start, fun _ h => absurd h List.not_mem_nil⟩
  | cons width widths ih =>
    obtain ⟨hstart, hall⟩ := ih (max start width)
    rw [List.foldl_cons]
    refine ⟨by omega, fun width' h' => ?_⟩
    rcases List.mem_cons.mp h' with rfl | h'
    · omega
    · exact hall width' h'

theorem one_le_commonWidth (ns : List Nat) : 1 ≤ commonWidth ns := (le_foldl_max _ 1).1

theorem lt_commonWidth {ns : List Nat} {n : Nat} (h : n ∈ ns) : n < 2 ^ commonWidth ns :=
  (lt_fieldWidth n).trans_le (Nat.pow_le_pow_right (by decide)
    ((le_foldl_max (ns.map fieldWidth) 1).2 _ (List.mem_map_of_mem h)))

/-! ## Writing and reading -/

section

variable {lengthWidth bitsWidth : Nat}

/-- The bits of lines. -/
def stepBits (lengthWidth bitsWidth : Nat) : List Step → List Bool
  | [] => []
  | step :: rest => lowBits lengthWidth step.length ++
      (lowBits bitsWidth step.bits ++ stepBits lengthWidth bitsWidth rest)

theorem bits_writeSteps {w : Writer} (hw : w.Valid) (lengthWidth bitsWidth : Nat)
    (steps : List Step) :
    (writeSteps lengthWidth bitsWidth w steps).bits =
      w.bits ++ stepBits lengthWidth bitsWidth steps ∧
        (writeSteps lengthWidth bitsWidth w steps).Valid := by
  induction steps generalizing w with
  | nil => exact ⟨(List.append_nil _).symm, hw⟩
  | cons step steps ih =>
    obtain ⟨hlength, hvalid⟩ := Writer.bits_writeBits hw lengthWidth step.length
    obtain ⟨hbits, hvalid'⟩ := Writer.bits_writeBits hvalid bitsWidth step.bits
    obtain ⟨hrest, hvalid''⟩ := ih hvalid'
    refine ⟨?_, hvalid''⟩
    have hstep : writeSteps lengthWidth bitsWidth w (step :: steps) = writeSteps lengthWidth
        bitsWidth ((w.writeBits lengthWidth step.length).writeBits bitsWidth step.bits) steps := rfl
    rw [hstep, hrest, hbits, hlength, stepBits, List.append_assoc, List.append_assoc]

theorem reads_readLines {low : Int} {steps : List Step}
    (hlengths : ∀ step ∈ steps, step.length < 2 ^ lengthWidth)
    (hbits : ∀ step ∈ steps, step.bits < 2 ^ bitsWidth ∧ step.bits ≤ maxBits) :
    Reads False (readLines lengthWidth bitsWidth (endOf low steps) low)
      (stepBits lengthWidth bitsWidth steps) (stepLines low steps, endOf low steps) := by
  induction steps generalizing low with
  | nil =>
    have hend : endOf low [] = low := rfl
    rw [readLines, hend, if_neg (Int.lt_irrefl low)]
    exact reads_pure _
  | cons step steps ih =>
    obtain ⟨hfits, hmax⟩ := hbits step List.mem_cons_self
    have hrest := @ih (low + (1 <<< step.bits : Nat))
      (fun s hs => hlengths s (List.mem_cons_of_mem step hs))
      fun s hs => hbits s (List.mem_cons_of_mem step hs)
    rw [readLines, if_pos (low_lt_endOf low step steps)]
    refine (reads_readBits (hlengths step List.mem_cons_self)).bind ?_ False.elim
    refine (reads_readBits hfits).bind ?_ False.elim
    rw [if_neg (Nat.not_lt.mpr hmax)]
    rw [← List.append_nil (stepBits _ _ _)]
    exact hrest.bind (reads_pure _) False.elim

end

/-- The byte of flags. -/
def flagsOf (t : CodeTable) : Nat :=
  t.oobLength.isSome.toNat + 2 * (commonWidth t.lengths - 1) +
    16 * (commonWidth (t.steps.map (·.bits)) - 1)

/-- The bytes in front of the lines. -/
def front (t : CodeTable) : Bytes :=
  toBigEndian 1 t.flagsOf ++ (toBigEndian 4 (ofSigned 32 t.low) ++
    toBigEndian 4 (ofSigned 32 (endOf t.low t.steps)))

/-- The bits of the lengths that come last. -/
def lastBits (lengthWidth : Nat) (t : CodeTable) : List Bool :=
  lowBits lengthWidth t.lowerLength ++ (lowBits lengthWidth t.upperLength ++
    t.oobLength.toList.flatMap (lowBits lengthWidth))

/-- What is written of a table, if it can be written. -/
theorem write_spec {t : CodeTable} {data : Bytes} (h : t.write = .ok data) :
    (commonWidth t.lengths ≤ 8 ∧ commonWidth (t.steps.map (·.bits)) ≤ 8 ∧
      ∀ step ∈ t.steps, step.bits ≤ maxBits) ∧
      endOf? t.low t.steps = some (endOf t.low t.steps) ∧
      ∃ padding, toList data = toList t.front ++
        (stepBits (commonWidth t.lengths) (commonWidth (t.steps.map (·.bits))) t.steps ++
          (lastBits (commonWidth t.lengths) t ++ padding)) := by
  unfold write at h
  dsimp only at h
  split at h
  · exact absurd h (by simp)
  next hnarrow =>
  split at h
  · exact absurd h (by simp)
  next high hhigh =>
  obtain rfl := (endOf?_spec hhigh).1
  simp only [not_or, Nat.not_lt, List.any_eq_true, decide_eq_true_eq, not_exists, not_and] at hnarrow
  refine ⟨hnarrow, hhigh, ?_⟩
  obtain rfl := Except.ok.inj h
  have hfront : Writer.writeSigned (Writer.writeSigned (Writer.writeUnsigned .empty 1 t.flagsOf) 4
      t.low) 4 (endOf t.low t.steps) = ⟨t.front, 0⟩ := by
    simp [Writer.writeSigned, Writer.writeUnsigned, Writer.writeBytes, Writer.empty, front,
      Array.append_assoc]
  unfold flagsOf at hfront
  rw [hfront]
  obtain ⟨hsteps, hvalid⟩ := bits_writeSteps (w := ⟨t.front, 0⟩) (Writer.valid_of_aligned rfl)
    (commonWidth t.lengths) (commonWidth (t.steps.map (·.bits))) t.steps
  rw [Writer.bits_of_aligned (w := ⟨t.front, 0⟩) rfl] at hsteps
  generalize writeSteps _ _ _ t.steps = w at hsteps hvalid
  obtain ⟨hlower, hvalid⟩ := Writer.bits_writeBits hvalid (commonWidth t.lengths) t.lowerLength
  obtain ⟨hupper, hvalid⟩ := Writer.bits_writeBits hvalid (commonWidth t.lengths) t.upperLength
  cases hoob : t.oobLength with
  | none =>
    obtain ⟨padding, hpadding⟩ := Writer.bits_prefix hvalid
    refine ⟨padding, hpadding.symm.trans ?_⟩
    rw [hupper, hlower, hsteps]
    simp [lastBits, hoob]
  | some length =>
    obtain ⟨hlast, hvalid⟩ := Writer.bits_writeBits hvalid (commonWidth t.lengths) length
    obtain ⟨padding, hpadding⟩ := Writer.bits_prefix hvalid
    refine ⟨padding, hpadding.symm.trans ?_⟩
    rw [hlast, hupper, hlower, hsteps]
    simp [lastBits, hoob]

theorem flags_spec (oob : Bool) {lengthWidth bitsWidth : Nat} (hl : 1 ≤ lengthWidth)
    (hl' : lengthWidth ≤ 8) (hb : 1 ≤ bitsWidth) (hb' : bitsWidth ≤ 8) :
    let flags := oob.toNat + 2 * (lengthWidth - 1) + 16 * (bitsWidth - 1)
    flags < 256 ∧ flags.testBit 7 = false ∧ flags / 2 % 8 + 1 = lengthWidth ∧
      flags / 16 % 8 + 1 = bitsWidth ∧ flags.testBit 0 = oob := by
  simp only [Nat.testBit_eq_decide_div_mod_eq]
  cases oob <;> simp <;> omega

/-- The lines of a table are read back. -/
theorem reads_readAll {t : CodeTable} (hlow : FitsSigned (t.low - 1)) (hlow' : FitsSigned t.low)
    (hhigh : FitsSigned (endOf t.low t.steps)) (hlengths : commonWidth t.lengths ≤ 8)
    (hbits : commonWidth (t.steps.map (·.bits)) ≤ 8) (hmax : ∀ step ∈ t.steps, step.bits ≤ maxBits) :
    Reads True readAll (toList t.front ++
      (stepBits (commonWidth t.lengths) (commonWidth (t.steps.map (·.bits))) t.steps ++
        lastBits (commonWidth t.lengths) t)) t.lines := by
  obtain ⟨hlt, hreserved, hlengthWidth, hbitsWidth, hoob⟩ := flags_spec t.oobLength.isSome
    (one_le_commonWidth t.lengths) hlengths (one_le_commonWidth (t.steps.map (·.bits))) hbits
  unfold front
  rw [toList_append, toList_append, List.append_assoc, List.append_assoc]
  have hlast : checkSigned (endOf t.low t.steps) = .ok (endOf t.low t.steps) := if_pos hhigh
  have hbelow : checkSigned (t.low - 1) = .ok (t.low - 1) := if_pos hlow
  unfold FitsSigned at hlow' hhigh
  refine (readsBytes_readUnsigned hlt).bind_bits ?_
  simp only [flagsOf, hreserved, hlengthWidth, hbitsWidth, hoob, Bool.false_eq_true, if_false]
  refine (readsBytes_readSigned (by norm_num; omega) (by norm_num; omega)).bind_bits ?_
  refine (readsBytes_readSigned (by norm_num; omega) (by norm_num; omega)).bind_bits ?_
  have hsteps : ∀ step ∈ t.steps, step.length < 2 ^ commonWidth t.lengths := fun step hstep =>
    lt_commonWidth (List.mem_append_left _ (List.mem_append_left _ (List.mem_map_of_mem hstep)))
  have hlower : t.lowerLength < 2 ^ commonWidth t.lengths := lt_commonWidth (by simp [lengths])
  have hupper : t.upperLength < 2 ^ commonWidth t.lengths := lt_commonWidth (by simp [lengths])
  refine Reads.aligned ((reads_readLines hsteps fun step hstep =>
    ⟨lt_commonWidth (List.mem_map_of_mem hstep), hmax step hstep⟩).bind ?_ False.elim)
  refine (reads_lift hlast).bind_nil ((reads_lift hbelow).bind_nil ?_)
  refine (reads_readBits hlower).bind ((reads_readBits hupper).bind ?_ False.elim) False.elim
  unfold lines
  cases hlength : t.oobLength with
  | none => exact (List.append_nil _).symm ▸ reads_pure _
  | some length =>
    have hfits : length < 2 ^ commonWidth t.lengths := lt_commonWidth (by simp [lengths, hlength])
    simp only [Option.isSome_some, if_true, Option.toList_some, List.map_cons, List.map_nil,
      List.flatMap_cons, List.flatMap_nil, List.append_assoc, List.cons_append, List.nil_append]
    exact (reads_readBits hfits).bind (reads_pure _) False.elim

end CodeTable

/-- The ends that a table writes fit signed numbers. -/
theorem CodeTable.fitsSigned_endOf {t : CodeTable} {data : Bytes} (h : t.write = .ok data)
    (hlow : FitsSigned t.low) : FitsSigned (endOf t.low t.steps) :=
  ⟨hlow.1.trans (le_endOf t.low t.steps), (endOf?_spec (write_spec h).2.1).2 hlow.2⟩

/-- Lines are read only if there is a value below the lowest bounded one. -/
theorem CodeTable.fitsSigned_of_readAll {t : CodeTable} {data : Bytes} {lines : List Line}
    {r : Reader} (h : t.write = .ok data) (hlow : FitsSigned t.low)
    (hread : readAll (Reader.ofBytes data) = .ok (lines, r)) : FitsSigned (t.low - 1) := by
  obtain ⟨⟨hlengths, hbits, -⟩, -, padding, hdata⟩ := write_spec h
  obtain ⟨hlt, hreserved, -⟩ := flags_spec t.oobLength.isSome (one_le_commonWidth t.lengths)
    hlengths (one_le_commonWidth (t.steps.map (·.bits))) hbits
  -- The lowest value is read behind the flags.
  have hfront : ReadsBytes (Reader.readUnsigned 1 >>= fun _ => Reader.readSigned 4)
      (toBigEndian 1 t.flagsOf ++ toBigEndian 4 (ofSigned 32 t.low)) t.low := by
    unfold FitsSigned at hlow
    exact (readsBytes_readUnsigned hlt).bind
      (readsBytes_readSigned (by norm_num; omega) (by norm_num; omega))
  have hrest := Reader.rest_ofBytes data
  rw [hdata, front, ← Array.append_assoc, toList_append, List.append_assoc] at hrest
  have hrun := hfront (Reader.ofBytes data) _ (Nat.zero_le _) (fun _ => Nat.dvd_zero 8) hrest
  obtain ⟨flags, r₁, hflags, hread⟩ := run_bind_eq_ok.mp hread
  split at hread
  · exact absurd hread throw_ne_ok
  obtain ⟨low, r₂, hsigned, hread⟩ := run_bind_eq_ok.mp hread
  obtain ⟨rfl, -⟩ := Prod.mk.inj (Except.ok.inj
    (hrun.symm.trans ((run_bind_ok hflags).trans hsigned)))
  obtain ⟨high, r₃, -, hread⟩ := run_bind_eq_ok.mp hread
  obtain ⟨ranges, r₄, -, hread⟩ := run_bind_eq_ok.mp hread
  obtain ⟨last, r₅, -, hread⟩ := run_bind_eq_ok.mp hread
  obtain ⟨below, r₆, hbelow, -⟩ := run_bind_eq_ok.mp hread
  obtain ⟨hfits, -⟩ := run_lift_eq_ok.mp hbelow
  exact (checkSigned_eq_ok.mp hfits).1

/-- Reading a table that was written builds the table of its lines. -/
theorem Table.read_write {t : CodeTable} {data : Bytes} (h : t.write = .ok data)
    (hlow : FitsSigned (t.low - 1)) (hlow' : FitsSigned t.low) :
    Table.read data = Table.build t.lines := by
  obtain ⟨⟨hlengths, hbits, hmax⟩, _, padding, hdata⟩ := CodeTable.write_spec h
  have hread := CodeTable.reads_readAll hlow hlow' (CodeTable.fitsSigned_endOf h hlow') hlengths
    hbits hmax (Reader.ofBytes data) padding (Nat.zero_le _) (fun _ => Nat.dvd_zero 8)
    (by rw [Reader.rest_ofBytes, hdata]; simp)
  unfold Table.read
  simp only [StateT.run, hread, Bind.bind, Except.bind]

/-- A table that was written and is read has a value below the bounded ones, and code words. -/
theorem Table.readable_of_read {t : CodeTable} {data : Bytes} {table : Table}
    (h : t.write = .ok data) (hlow : FitsSigned t.low) (hread : Table.read data = .ok table) :
    FitsSigned (t.low - 1) ∧ Table.build t.lines = .ok table := by
  obtain ⟨⟨lines, r⟩, hlines, -⟩ := bind_eq_ok.mp hread
  have hbelow := CodeTable.fitsSigned_of_readAll h hlow hlines
  exact ⟨hbelow, (Table.read_write h hbelow hlow).symm.trans hread⟩

end Bilevel.Huffman

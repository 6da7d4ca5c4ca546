import Bilevel.Proofs.Huffman.Table

/-!
# Values that can be written

A table writes a value if one of its used lines has it, and refuses every other value. If ranges
follow one another without a gap up to one that has no end, then all values from the first one on
are written.

## Main definitions

* `reachesFrom` — lines that have all values from some number on.

## Main results

* `Table.exists_encode_iff` — the values of the used lines are written, and no others.
* `Table.exists_encode_of_reachesFrom` — all values from some number on are written.
-/

namespace Bilevel.Huffman

namespace Table

variable {lines : List Line} {table : Table}

/-- A line is found for every value that a used line has. -/
theorem exists_entryFor {value : Option Int} {entry : Entry} (hmem : entry ∈ table.entries)
    (hused : entry.line.used = true) (hholds : entry.line.range.Holds value) :
    ∃ found, table.entryFor value = some found := by
  cases value with
  | none =>
    refine Option.isSome_iff_exists.mp (List.find?_isSome.mpr ⟨entry, hmem, ?_⟩)
    rw [Bool.and_eq_true]
    exact ⟨hused, beq_iff_eq.mpr hholds⟩
  | some n =>
    have hfound : (table.entries.find? fun entry =>
        entry.line.used && entry.line.range.covers n).isSome := by
      refine List.find?_isSome.mpr ⟨entry, hmem, ?_⟩
      rw [Bool.and_eq_true]
      exact ⟨hused, hholds⟩
    refine Option.isSome_iff_exists.mp ?_
    rw [entryFor, Option.orElse_eq_orElse, Option.orElse_eq_or, Option.isSome_or, hfound,
      Bool.or_true]

/-- The values of the used lines are written, and no others. -/
theorem exists_encode_iff (h : build lines = .ok table) (w : Writer) (value : Option Int) :
    (∃ w', table.encode w value = .ok w') ↔
      ∃ line ∈ lines, line.used = true ∧ line.range.Holds value := by
  rw [← map_line_build h]
  constructor
  · rintro ⟨w', hw'⟩
    unfold encode at hw'
    split at hw'
    · cases hw'
    · next entry hentry =>
      obtain ⟨hmem, hused, hholds⟩ := entryFor_spec hentry
      exact ⟨entry.line, List.mem_map_of_mem hmem, hused, hholds⟩
  · rintro ⟨line, hline, hused, hholds⟩
    obtain ⟨entry, hmem, rfl⟩ := List.mem_map.mp hline
    obtain ⟨found, hfound⟩ := exists_entryFor hmem hused hholds
    exact ⟨_, by rw [encode, hfound]⟩

end Table

/-! ## Ranges without gaps -/

/-- Whether the first lines have all values from a number on: used lines whose ranges follow one
another without a gap, up to one that has no end. -/
def reachesFrom (low : Int) : List Line → Bool
  | [] => false
  | line :: rest => line.used && match line.range with
    | .values start bits => decide (start ≤ low) && reachesFrom (start + (1 <<< bits : Nat)) rest
    | .upper start => decide (start ≤ low)
    | .lower _ | .outOfBand => false

theorem exists_line_of_reachesFrom {lines : List Line} {low n : Int}
    (h : reachesFrom low lines = true) (hn : low ≤ n) :
    ∃ line ∈ lines, line.used = true ∧ line.range.Holds (some n) := by
  induction lines generalizing low with
  | nil => cases h
  | cons line lines ih =>
    rw [reachesFrom, Bool.and_eq_true] at h
    obtain ⟨hused, h⟩ := h
    cases hrange : line.range with
    | values start bits =>
      simp only [hrange, Bool.and_eq_true, decide_eq_true_eq] at h
      -- the value is in this range, or the lines behind it have it
      by_cases hend : n < start + (1 <<< bits : Nat)
      · refine ⟨line, List.mem_cons_self, hused, ?_⟩
        rw [hrange, Range.Holds, Range.covers, Bool.and_eq_true, decide_eq_true_eq,
          decide_eq_true_eq]
        exact ⟨h.1.trans hn, hend⟩
      · obtain ⟨line', hmem, hline'⟩ := ih h.2 (not_lt.mp hend)
        exact ⟨line', List.mem_cons_of_mem line hmem, hline'⟩
    | upper start =>
      simp only [hrange, decide_eq_true_eq] at h
      refine ⟨line, List.mem_cons_self, hused, ?_⟩
      rw [hrange]
      exact decide_eq_true (h.trans hn)
    | lower | outOfBand =>
      rw [hrange] at h
      cases h

/-- All values from some number on are written. -/
theorem Table.exists_encode_of_reachesFrom {lines : List Line} {table : Table} {low n : Int}
    (h : build lines = .ok table) (hlines : reachesFrom low lines = true) (hn : low ≤ n)
    (w : Writer) : ∃ w', table.encode w (some n) = .ok w' :=
  (exists_encode_iff h w (some n)).mpr (exists_line_of_reachesFrom hlines hn)

end Bilevel.Huffman

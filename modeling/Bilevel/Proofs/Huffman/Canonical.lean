import Bilevel.Proofs.Bits.Stream
import Bilevel.Proofs.Huffman.Kraft
import Bilevel.Proofs.Huffman.Leaves
import Bilevel.Proofs.Huffman.Table
import Mathlib.Order.Bounds.Basic

/-!
# Canonical code words

The used lines of a table have canonical code words: in the order of their lengths, and of the lines
for each length, every line has the first code word that begins with none of those before it. So no
code word is the beginning of another, and all of them can be added to the tree.

## Main definitions

* `Precedes` — the order in which lines get their code words.
* `Canonical` — code words are in this order, and every line has the first one that is free.

## Main results

* `canonical_canonicalCodes` — code words that have room are canonical.
* `Canonical.prefixFree` — canonical code words are not beginnings of one another.
* `Table.build_canonical` — which tables can be built, and what is built.
-/

namespace Bilevel.Huffman

open Bits

/-! ## Places of lines -/

/-- The code word of a line: its place among the lines of its length, behind the shorter ones. -/
def codeAt (lines : List Line) (i : Nat) (h : i < lines.length) : Nat :=
  firstCode lines lines[i].length + lines.countPBefore (·.length == lines[i].length) i

theorem getD_modify_succ (next : Array Nat) (i : Nat) {j : Nat} (h : j < next.size) :
    (next.modify i (· + 1)).getD j 0 = next.getD j 0 + if i = j then 1 else 0 := by
  simp only [Array.getD_eq_getD_getElem?, Array.getElem?_modify, Array.getElem?_eq_getElem h]
  split <;> rfl

theorem getElem?_assignCodes (next : Array Nat) {lines : List Line} {i : Nat} {line : Line}
    (hi : lines[i]? = some line) (hlt : line.length < next.size) :
    (assignCodes next lines)[i]? =
      some ⟨line, next.getD line.length 0 + lines.countPBefore (·.length == line.length) i⟩ := by
  induction lines generalizing next i with
  | nil => cases hi
  | cons first lines ih =>
    cases i with
    | zero =>
      obtain rfl := Option.some.inj hi
      simp [assignCodes]
    | succ i =>
      rw [assignCodes, List.getElem?_cons_succ, ih _ hi (by rwa [Array.size_modify]),
        getD_modify_succ next first.length hlt, List.countPBefore_cons_succ]
      simp only [beq_iff_eq, Option.some.injEq, Entry.mk.injEq, true_and]
      split <;> omega

section

variable {lines : List Line} {m : Nat}

theorem length_canonicalCodes (lines : List Line) :
    (canonicalCodes lines).length = lines.length := by
  simpa [canonicalCodes] using congrArg List.length (Table.map_line_assignCodes _ lines)

theorem getElem_canonicalCodes (hlines : ∀ line ∈ lines, line.length ≤ maxLength) {i : Nat}
    (h : i < lines.length) (h' : i < (canonicalCodes lines).length) :
    (canonicalCodes lines)[i] = ⟨lines[i], codeAt lines i h⟩ := by
  have hlt : lines[i].length < maxLength + 1 := Nat.lt_succ_of_le (hlines _ (List.getElem_mem h))
  have hget := getElem?_assignCodes ((Array.range (maxLength + 1)).map (firstCode lines))
    (List.getElem?_eq_getElem h) (by simpa using hlt)
  rw [← canonicalCodes, List.getElem?_eq_getElem h', Option.some.injEq] at hget
  simpa [hlt, codeAt] using hget

theorem countLength_eq_countP (lines : List Line) (h : 0 < m) :
    countLength lines m = lines.countP (·.length == m) :=
  if_neg (by omega)

theorem codeAt_lt_taken {i : Nat} (hi : i < lines.length) (hused : lines[i].used = true) :
    codeAt lines i hi < taken lines lines[i].length := by
  rw [← firstCode_add_countLength, countLength_eq_countP lines (of_decide_eq_true hused)]
  exact Nat.add_lt_add_left (List.countPBefore_lt_countP_of_lt_length_of_pos (h := hi) (by simp)) _

/-- The code words of one length are in the order of their lines. -/
theorem codeAt_lt_codeAt {i j : Nat} (hi : i < lines.length) (hj : j < lines.length)
    (hlength : lines[i].length = lines[j].length) (hij : i < j) :
    codeAt lines i hi < codeAt lines j hj := by
  unfold codeAt
  rw [hlength]
  refine Nat.add_lt_add_left (Nat.lt_of_le_of_ne (List.countPBefore_mono hij.le) fun heq => ?_) _
  -- a line is found by its place
  have hfound := List.findIdxNth_countPBefore_of_lt_length_of_pos (h := hi)
    (p := (·.length == lines[j].length)) (by simp [hlength])
  rw [heq, List.findIdxNth_countPBefore_of_lt_length_of_pos (h := hj) (by simp)] at hfound
  exact hij.ne' hfound

/-- The code words that begin with an earlier one come before. -/
theorem codeAt_succ_mul_le {i j : Nat} (hi : i < lines.length) (hj : j < lines.length)
    (hused : lines[i].used = true)
    (hij : lines[i].length < lines[j].length ∨ lines[i].length = lines[j].length ∧ i < j) :
    (codeAt lines i hi + 1) * 2 ^ (lines[j].length - lines[i].length) ≤ codeAt lines j hj := by
  rcases hij with hlt | ⟨hlength, hij⟩
  · calc (codeAt lines i hi + 1) * 2 ^ (lines[j].length - lines[i].length)
        ≤ taken lines lines[i].length * 2 ^ (lines[j].length - lines[i].length) :=
          Nat.mul_le_mul_right _ (codeAt_lt_taken hi hused)
      _ ≤ firstCode lines lines[j].length := taken_mul_le_firstCode hlt
      _ ≤ codeAt lines j hj := Nat.le_add_right _ _
  · rw [hlength, Nat.sub_self, Nat.pow_zero, Nat.mul_one]
    exact codeAt_lt_codeAt hi hj hlength hij

/-- At every place among the lines of a length there is one of them. -/
theorem exists_countPBefore_eq {place : Nat} (h : place < countLength lines m) :
    ∃ (i : Nat) (hi : i < lines.length), lines[i].used = true ∧ lines[i].length = m ∧
      lines.countPBefore (·.length == m) i = place := by
  have hm : 0 < m := Nat.pos_of_ne_zero fun hzero => by simp [countLength, hzero] at h
  rw [countLength_eq_countP lines hm] at h
  have hi := List.findIdxNth_lt_length_of_lt_countP h
  have hlength : lines[lines.findIdxNth (·.length == m) place].length = m :=
    eq_of_beq (List.pos_findIdxNth_getElem (p := fun line : Line => line.length == m) (h := hi))
  exact ⟨_, hi, decide_eq_true (by omega), hlength, List.countPBefore_findIdxNth_of_lt_countP h⟩

/-- What is before the first code word of a length begins with a shorter code word. -/
theorem exists_codeAt_of_lt_firstCode {code : Nat} (h : code < firstCode lines m) :
    ∃ (i : Nat) (hi : i < lines.length), lines[i].used = true ∧ lines[i].length < m ∧
      codeAt lines i hi = code / 2 ^ (m - lines[i].length) := by
  induction m generalizing code with
  | zero => exact absurd h (Nat.not_lt_zero code)
  | succ m ih =>
    by_cases hshorter : code / 2 < firstCode lines m
    · obtain ⟨i, hi, hused, hlt, hcode⟩ := ih hshorter
      refine ⟨i, hi, hused, by omega, ?_⟩
      rw [hcode, Nat.div_div_eq_div_mul, ← Nat.pow_succ', Nat.succ_sub hlt.le]
    · have hplace : code / 2 - firstCode lines m < countLength lines m := by
        rw [firstCode] at h
        omega
      obtain ⟨i, hi, hused, rfl, hcount⟩ := exists_countPBefore_eq hplace
      refine ⟨i, hi, hused, Nat.lt_succ_self _, ?_⟩
      rw [codeAt, hcount, Nat.succ_sub (Nat.le_refl _), Nat.sub_self, Nat.pow_one]
      omega

/-- What is before a code word begins with an earlier one. -/
theorem exists_codeAt_of_lt_codeAt {code j : Nat} (hj : j < lines.length)
    (hused : lines[j].used = true) (h : code < codeAt lines j hj) :
    ∃ (i : Nat) (hi : i < lines.length), lines[i].used = true ∧
      (lines[i].length < lines[j].length ∨ lines[i].length = lines[j].length ∧ i < j) ∧
      codeAt lines i hi = code / 2 ^ (lines[j].length - lines[i].length) := by
  by_cases hshorter : code < firstCode lines lines[j].length
  · obtain ⟨i, hi, hused, hlt, hcode⟩ := exists_codeAt_of_lt_firstCode hshorter
    exact ⟨i, hi, hused, .inl hlt, hcode⟩
  · have hplace : code - firstCode lines lines[j].length <
        lines.countPBefore (·.length == lines[j].length) j := by
      unfold codeAt at h
      omega
    have hcount := countLength_eq_countP lines (of_decide_eq_true hused)
    obtain ⟨i, hi, hused, hlength, heq⟩ := exists_countPBefore_eq
      (hcount ▸ hplace.trans_le (List.countPBefore_le_countP _))
    have hij : i < j := Nat.lt_of_not_le fun hji => by
      have hmono : lines.countPBefore (·.length == lines[j].length) j ≤
          lines.countPBefore (·.length == lines[j].length) i := List.countPBefore_mono hji
      omega
    refine ⟨i, hi, hused, .inr ⟨hlength, hij⟩, ?_⟩
    rw [codeAt, hlength, heq, Nat.sub_self, Nat.pow_zero, Nat.div_one]
    omega

/-- A code word has no more bits than its length if there is room. -/
theorem codeAt_lt_two_pow (hroom : hasRoom lines = true) {i : Nat} (hi : i < lines.length)
    (hused : lines[i].used = true) : codeAt lines i hi < 2 ^ lines[i].length := by
  obtain ⟨hlines, hroom⟩ := hasRoom_eq_true.mp hroom
  have hle := hlines _ (List.getElem_mem hi)
  have hpos : 0 < lines[i].length := of_decide_eq_true hused
  have htaken := hroom (lines[i].length - 1) (by omega)
  rw [Nat.sub_add_cancel hpos] at htaken
  exact (codeAt_lt_taken hi hused).trans_le htaken

end

/-! ## Canonical code words -/

/-- The order in which lines get their code words: shorter ones first, and those of the same length
as they come. -/
def Precedes (entries : List Entry) (i j : Fin entries.length) : Prop :=
  entries[i].line.length < entries[j].line.length ∨
    entries[i].line.length = entries[j].line.length ∧ i < j

theorem Precedes.length_le {entries : List Entry} {i j : Fin entries.length}
    (h : Precedes entries i j) : entries[i].line.length ≤ entries[j].line.length :=
  h.elim (·.le) (·.1.le)

/-- The code words for a line that begin with none of those before it. -/
def freeCodes (entries : List Entry) (j : Fin entries.length) : Set Nat :=
  { code | code < 2 ^ entries[j].line.length ∧
    ∀ i, entries[i].line.used = true → Precedes entries i j →
      ¬entries[i].bits <+: lowBits entries[j].line.length code }

/-- A code word comes after all that begin with an earlier one. -/
def Ordered (entries : List Entry) : Prop :=
  ∀ i j, entries[i].line.used = true → entries[j].line.used = true → Precedes entries i j →
    (entries[i].code + 1) * 2 ^ (entries[j].line.length - entries[i].line.length) ≤ entries[j].code

/-- Code words are in the order of their lines, and each is the first one that is free. -/
structure Canonical (entries : List Entry) : Prop where
  ordered : Ordered entries
  least : ∀ j, entries[j].line.used = true → IsLeast (freeCodes entries j) entries[j].code

theorem Canonical.apart {entries : List Entry} (h : Canonical entries)
    {i j : Fin entries.length} (hi : entries[i].line.used = true)
    (hj : entries[j].line.used = true) (hij : Precedes entries i j) :
    Apart entries[i].bits entries[j].bits := by
  have hnot : ¬entries[i].bits <+: entries[j].bits := (h.least j hj).1.2 i hi hij
  refine ⟨hnot, fun hbegins => hnot ?_⟩
  -- a beginning that isn't shorter is all of it
  have hle := hbegins.length_le
  simp only [Entry.bits, length_lowBits] at hle
  have hlength := Nat.le_antisymm hij.length_le hle
  exact (hbegins.eq_of_length (by simpa [Entry.bits] using hlength.symm)) ▸ List.prefix_refl _

/-- Canonical code words are not beginnings of one another. -/
theorem Canonical.prefixFree {entries : List Entry} (h : Canonical entries) :
    PrefixFree entries := by
  refine List.pairwise_iff_getElem.mpr fun i j hi hj hij husedi husedj => ?_
  rcases Nat.lt_or_ge entries[j].line.length entries[i].line.length with hlt | hle
  · exact (h.apart (i := ⟨j, hj⟩) (j := ⟨i, hi⟩) husedj husedi (.inl hlt)).symm
  · exact h.apart (i := ⟨i, hi⟩) (j := ⟨j, hj⟩) husedi husedj
      (hle.lt_or_eq.imp_right fun heq => ⟨heq, hij⟩)

/-- Code words are canonical if they fit, are in order, and leave out only what begins with an
earlier one. -/
theorem canonical_of_ordered {entries : List Entry}
    (hfits : ∀ i : Fin entries.length, entries[i].line.used = true →
      entries[i].code < 2 ^ entries[i].line.length)
    (hordered : Ordered entries)
    (hbefore : ∀ j, entries[j].line.used = true → ∀ code < entries[j].code,
      ∃ i, entries[i].line.used = true ∧ Precedes entries i j ∧
        entries[i].code = code / 2 ^ (entries[j].line.length - entries[i].line.length)) :
    Canonical entries := by
  have hbegins_iff {i j : Fin entries.length} (hi : entries[i].line.used = true)
      (hij : Precedes entries i j) {code : Nat} (hcode : code < 2 ^ entries[j].line.length) :
      entries[i].bits <+: lowBits entries[j].line.length code ↔
        entries[i].code = code / 2 ^ (entries[j].line.length - entries[i].line.length) :=
    lowBits_prefix_iff hij.length_le (hfits i hi) hcode
  refine ⟨hordered, fun j hj => ⟨⟨hfits j hj, fun i hi hij h => ?_⟩, fun code hcode => ?_⟩⟩
  · have hle := (Nat.le_div_iff_mul_le (Nat.two_pow_pos _)).mpr (hordered i j hi hj hij)
    have heq := (hbegins_iff hi hij (hfits j hj)).mp h
    omega
  · by_contra hlt
    obtain ⟨i, hi, hij, heq⟩ := hbefore j hj code (by omega)
    exact hcode.2 i hi hij ((hbegins_iff hi hij hcode.1).mpr heq)

/-- Code words that have room are canonical. -/
theorem canonical_canonicalCodes {lines : List Line} (hroom : hasRoom lines = true) :
    Canonical (canonicalCodes lines) := by
  have hsize := length_canonicalCodes lines
  have hentry (i : Fin (canonicalCodes lines).length) :
      (canonicalCodes lines)[i] = ⟨lines.get (i.cast hsize), codeAt lines i (hsize ▸ i.2)⟩ :=
    getElem_canonicalCodes (hasRoom_eq_true.mp hroom).1 _ i.2
  refine canonical_of_ordered ?_ ?_ ?_ <;>
    simp only [Ordered, Precedes, hentry, List.get_eq_getElem]
  · exact fun i hi => codeAt_lt_two_pow hroom _ hi
  · exact fun i j hi _ hij => codeAt_succ_mul_le _ _ hi hij
  · intro j hj code hcode
    obtain ⟨i, hi, hused, hij, heq⟩ := exists_codeAt_of_lt_codeAt _ hj hcode
    exact ⟨⟨i, hsize.symm ▸ hi⟩, hused, hij, heq⟩

/-! ## Tables -/

namespace Table

/-- Code words that have room can all be added, so the tree has a leaf for each of them. -/
theorem exists_build {lines : List Line} (hroom : hasRoom lines = true) :
    ∃ tree, build lines = .ok ⟨canonicalCodes lines, tree⟩ ∧
      tree.leaves.Perm (usedLeaves (canonicalCodes lines)) := by
  have hempty : Tree.empty.Fruitful := trivial
  obtain ⟨tree, htree, hleaves⟩ := exists_insertAll hempty
    (canonical_canonicalCodes hroom).prefixFree fun _ hleaf => absurd hleaf List.not_mem_nil
  refine ⟨tree, by simp [build, hroom, htree], ?_⟩
  rwa [Tree.leaves, List.append_nil] at hleaves

theorem hasRoom_of_build {lines : List Line} {table : Table} (h : build lines = .ok table) :
    hasRoom lines = true := by
  by_contra hroom
  rw [build, if_neg hroom] at h
  cases h

theorem exists_build_iff {lines : List Line} :
    (∃ table, build lines = .ok table) ↔ hasRoom lines = true := by
  constructor
  · exact fun ⟨table, h⟩ => hasRoom_of_build h
  · intro hroom
    obtain ⟨tree, hbuild, -⟩ := exists_build hroom
    exact ⟨_, hbuild⟩

/-- A table has the canonical code words of its lines. -/
theorem entries_build {lines : List Line} {table : Table} (h : build lines = .ok table) :
    table.entries = canonicalCodes lines := by
  obtain ⟨tree, hbuild, -⟩ := exists_build (hasRoom_of_build h)
  rw [Except.ok.inj (h.symm.trans hbuild)]

/-- Exactly the lines whose code words aren't too long and satisfy Kraft's inequality make a table.
It has the canonical code words of these lines, no code word of a used line is the beginning of
that of another, and each of them leads to a leaf of the tree, which has no others. -/
theorem build_canonical (lines : List Line) :
    ((∃ table, build lines = .ok table) ↔
      (∀ line ∈ lines, line.length ≤ 32) ∧ kraftSum lines ≤ 1) ∧
    ∀ table, build lines = .ok table →
      table.entries.map (·.line) = lines ∧ Canonical table.entries ∧ PrefixFree table.entries ∧
        table.tree.leaves.Perm (usedLeaves table.entries) := by
  have hroom {table : Table} (h : build lines = .ok table) : hasRoom lines = true := by
    by_contra hroom
    rw [build, if_neg hroom] at h
    cases h
  refine ⟨⟨fun ⟨table, h⟩ => hasRoom_iff.mp (hroom h), fun h => ?_⟩, fun table h => ?_⟩
  · obtain ⟨tree, hbuild, -⟩ := exists_build (hasRoom_iff.mpr h)
    exact ⟨_, hbuild⟩
  · have hcanonical := canonical_canonicalCodes (hroom h)
    obtain ⟨tree, hbuild, hleaves⟩ := exists_build (hroom h)
    obtain rfl := Except.ok.inj (hbuild.symm.trans h)
    exact ⟨map_line_build h, hcanonical, hcanonical.prefixFree, hleaves⟩

/-- Lines of lengths that are far apart, with one that isn't used between them. -/
def sparse : List Line :=
  [⟨32, .lower (-1)⟩, ⟨1, .values 0 4⟩, ⟨0, .values 16 4⟩, ⟨4, .outOfBand⟩, ⟨32, .upper 16⟩]

theorem build_canonical_sparse : ∃ table, build sparse = .ok table ∧ Canonical table.entries ∧
    PrefixFree table.entries ∧ table.tree.leaves.Perm (usedLeaves table.entries) := by
  obtain ⟨hbuild, hall⟩ := build_canonical sparse
  have hkraft : kraftSum sparse ≤ 1 := by decide +kernel
  obtain ⟨table, h⟩ := hbuild.mpr ⟨by decide, hkraft⟩
  exact ⟨table, h, (hall table h).2⟩

end Table
end Bilevel.Huffman

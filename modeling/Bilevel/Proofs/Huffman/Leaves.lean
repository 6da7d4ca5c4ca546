import Bilevel.Proofs.Huffman.Tree
import Mathlib.Data.List.Basic

/-!
# The leaves of a tree of code words

A tree of code words has a leaf for each code word that was added, and no other. A code word can be
added if neither it nor one in the tree is the beginning of the other, as long as there is a leaf
somewhere below every node: a node without leaves would take up a code word that nothing collides
with.

## Main definitions

* `Tree.leaves` — the leaves, each with the bits that lead to it.
* `Tree.Fruitful` — a leaf somewhere below every node.
* `Apart` — neither of two code words is the beginning of the other.

## Main results

* `Tree.mem_leaves_iff` — the leaves are what can be looked up.
* `Tree.exists_insert` — a code word that is apart from all in the tree can be added.
* `Table.exists_insertAll` — so can code words that are apart from one another.
-/

namespace Bilevel.Huffman

/-- Neither of two code words is the beginning of the other. -/
def Apart (p q : List Bool) : Prop := ¬p <+: q ∧ ¬q <+: p

theorem Apart.symm {p q : List Bool} (h : Apart p q) : Apart q p := ⟨h.2, h.1⟩

theorem apart_cons {bit : Bool} {p q : List Bool} : Apart (bit :: p) (bit :: q) ↔ Apart p q := by
  simp [Apart, List.cons_prefix_cons]

namespace Tree

/-- The leaves of a tree, from left to right, each with the bits that lead to it. -/
def leaves : Tree → List (List Bool × Range)
  | empty => []
  | leaf range => [([], range)]
  | node zero one =>
    zero.leaves.map (fun (bits, range) => (false :: bits, range)) ++
      one.leaves.map (fun (bits, range) => (true :: bits, range))

/-- Below every node there is a leaf. -/
def Fruitful : Tree → Prop
  | empty | leaf _ => True
  | node zero one => (node zero one).leaves ≠ [] ∧ zero.Fruitful ∧ one.Fruitful

section

variable {bits : List Bool} {tree zero one : Tree}

/-- A tree that isn't just a leaf has the leaves of its children. -/
theorem exists_children (h : tree.Fruitful) (hroot : ∀ leaf ∈ tree.leaves, leaf.1 ≠ []) :
    ∃ zero one, tree.children = some (zero, one) ∧ tree.leaves = (node zero one).leaves ∧
      zero.Fruitful ∧ one.Fruitful := by
  cases tree with
  | empty => exact ⟨empty, empty, rfl, rfl, trivial, trivial⟩
  | leaf range => exact absurd rfl (hroot ([], range) List.mem_cons_self)
  | node zero one => exact ⟨zero, one, rfl, rfl, h.2⟩

theorem mem_leaves_zero {leaf : List Bool × Range} (h : leaf ∈ zero.leaves) :
    (false :: leaf.1, leaf.2) ∈ (node zero one).leaves :=
  List.mem_append_left _ (List.mem_map_of_mem h)

theorem mem_leaves_one {leaf : List Bool × Range} (h : leaf ∈ one.leaves) :
    (true :: leaf.1, leaf.2) ∈ (node zero one).leaves :=
  List.mem_append_right _ (List.mem_map_of_mem h)

/-- The leaves are what can be looked up. -/
theorem mem_leaves_iff {range : Range} : (bits, range) ∈ tree.leaves ↔
    tree.lookup bits = some range := by
  induction tree generalizing bits with
  | empty => simp [leaves, lookup_empty]
  | leaf range' => cases bits <;> simp [leaves, lookup, eq_comm]
  | node zero one ihzero ihone =>
    cases bits with
    | nil => simp [leaves, lookup]
    | cons bit bits => cases bit <;> simp [leaves, lookup, ihzero, ihone]

/-- A code word that is apart from all in the tree can be added, and is then one of them. -/
theorem exists_insert (range : Range) (h : tree.Fruitful)
    (hapart : ∀ leaf ∈ tree.leaves, Apart leaf.1 bits) :
    ∃ tree', insert range bits tree = some tree' ∧ tree'.Fruitful ∧
      tree'.leaves.Perm ((bits, range) :: tree.leaves) := by
  induction bits generalizing tree with
  | nil =>
    -- every code word begins with this one, so there is none yet
    have hnone : tree.leaves = [] := List.eq_nil_iff_forall_not_mem.mpr fun leaf hleaf =>
      (hapart leaf hleaf).2 List.nil_prefix
    cases tree with
    | empty => exact ⟨leaf range, rfl, trivial, .refl _⟩
    | leaf range' => cases hnone
    | node zero one => exact absurd hnone h.1
  | cons bit bits ih =>
    obtain ⟨zero, one, hchildren, hleaves, hzero, hone⟩ := exists_children h fun leaf hleaf hnil =>
      (hapart leaf hleaf).1 (hnil ▸ List.nil_prefix)
    rw [hleaves] at hapart ⊢
    rw [insert, hchildren]
    cases bit with
    | false =>
      obtain ⟨tree', hinsert, htree', hperm⟩ := ih hzero fun leaf hleaf =>
        apart_cons.mp (hapart _ (mem_leaves_zero hleaf))
      have hperm' : (node tree' one).leaves.Perm
          ((false :: bits, range) :: (node zero one).leaves) :=
        (hperm.map _).append_right _
      refine ⟨node tree' one, by simp [hinsert], ⟨fun hnil => ?_, htree', hone⟩, hperm'⟩
      exact List.cons_ne_nil _ _ (hnil ▸ hperm').nil_eq.symm
    | true =>
      obtain ⟨tree', hinsert, htree', hperm⟩ := ih hone fun leaf hleaf =>
        apart_cons.mp (hapart _ (mem_leaves_one hleaf))
      have hperm' : (node zero tree').leaves.Perm
          ((true :: bits, range) :: (node zero one).leaves) :=
        ((hperm.map _).append_left _).trans List.perm_middle
      refine ⟨node zero tree', by simp [hinsert], ⟨fun hnil => ?_, hzero, htree'⟩, hperm'⟩
      exact List.cons_ne_nil _ _ (hnil ▸ hperm').nil_eq.symm

end
end Tree

/-- The leaves for the used lines, each with the code word that leads to it. -/
def usedLeaves (entries : List Entry) : List (List Bool × Range) :=
  (entries.filter (·.line.used)).map fun entry => (entry.bits, entry.line.range)

theorem usedLeaves_cons (entry : Entry) (entries : List Entry) : usedLeaves (entry :: entries) =
    if entry.line.used then (entry.bits, entry.line.range) :: usedLeaves entries
    else usedLeaves entries := by
  cases hused : entry.line.used <;> simp [usedLeaves, hused]

/-- No code word of a used line is the beginning of that of another. -/
def PrefixFree (entries : List Entry) : Prop :=
  entries.Pairwise fun e e' => e.line.used = true → e'.line.used = true → Apart e.bits e'.bits

/-- Code words that are apart from one another can be added, and there is then a leaf for each of
them besides those there were. -/
theorem Table.exists_insertAll {tree : Tree} {entries : List Entry} (h : tree.Fruitful)
    (hfree : PrefixFree entries)
    (hapart : ∀ leaf ∈ tree.leaves, ∀ entry ∈ entries, entry.line.used = true →
      Apart leaf.1 entry.bits) :
    ∃ tree', insertAll tree entries = some tree' ∧
      tree'.leaves.Perm (usedLeaves entries ++ tree.leaves) := by
  induction entries generalizing tree with
  | nil => exact ⟨tree, rfl, .refl _⟩
  | cons entry entries ih =>
    obtain ⟨hfirst, hfree⟩ := List.pairwise_cons.mp hfree
    rw [insertAll]
    by_cases hused : entry.line.used = true
    · obtain ⟨tree', hinsert, htree', hperm⟩ := Tree.exists_insert entry.line.range h
        fun leaf hleaf => hapart leaf hleaf entry List.mem_cons_self hused
      have hapart' : ∀ leaf ∈ tree'.leaves, ∀ e ∈ entries, e.line.used = true →
          Apart leaf.1 e.bits := by
        intro leaf hleaf e he hused'
        rcases List.mem_cons.mp (hperm.mem_iff.mp hleaf) with rfl | hleaf
        · exact hfirst e he hused hused'
        · exact hapart leaf hleaf e (List.mem_cons_of_mem _ he) hused'
      obtain ⟨tree'', hall, hperm'⟩ := ih htree' hfree hapart'
      refine ⟨tree'', by simp [hused, hinsert, hall], hperm'.trans ?_⟩
      rw [usedLeaves_cons, if_pos hused]
      exact (hperm.append_left _).trans List.perm_middle
    · obtain ⟨tree', hall, hperm⟩ := ih h hfree fun leaf hleaf e he =>
        hapart leaf hleaf e (List.mem_cons_of_mem _ he)
      refine ⟨tree', by simp [hused, hall], ?_⟩
      rwa [usedLeaves_cons, if_neg hused]

end Bilevel.Huffman

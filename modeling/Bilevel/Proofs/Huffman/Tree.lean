import Bilevel.Huffman.Table
import Bilevel.Proofs.Bits.Reads

/-!
# Looking up code words

A tree of code words gives back every code word that was added to it, whatever was added later,
and reading a code word leads to its range.

## Main definitions

* `Tree.lookup` — the range at the end of a code word.

## Main results

* `Tree.reads_read` — a code word that can be looked up is read.
* `Table.lookup_of_insertAll` — the code words of all used lines can be looked up.
-/

namespace Bilevel.Huffman

open Bits

namespace Tree

/-- The range at the end of a code word. -/
def lookup : Tree → List Bool → Option Range
  | leaf range, [] => some range
  | node zero one, bit :: bits => if bit then one.lookup bits else zero.lookup bits
  | _, _ => none

theorem lookup_empty (bits : List Bool) : empty.lookup bits = none := by
  cases bits <;> rfl

/-- The code words behind the children of a tree. -/
theorem lookup_of_children {tree zero one : Tree} (h : tree.children = some (zero, one))
    (bit : Bool) (bits : List Bool) :
    tree.lookup (bit :: bits) = if bit then one.lookup bits else zero.lookup bits := by
  cases tree with
  | empty =>
    obtain ⟨rfl, rfl⟩ := Prod.mk.inj (Option.some.inj h)
    rw [lookup_empty, lookup_empty, ite_self]
  | leaf range => exact absurd h (by simp [children])
  | node zero' one' =>
    obtain ⟨rfl, rfl⟩ := Prod.mk.inj (Option.some.inj h)
    rfl

theorem lookup_nil_of_children {tree zero one : Tree} (h : tree.children = some (zero, one)) :
    tree.lookup [] = none := by
  cases tree with
  | empty => rfl
  | leaf range => exact absurd h (by simp [children])
  | node zero' one' => rfl

/-- A code word that was added can be looked up, and all others still can. -/
theorem lookup_insert {range : Range} {bits : List Bool} {tree tree' : Tree}
    (h : insert range bits tree = some tree') :
    tree'.lookup bits = some range ∧
      ∀ bits' range', tree.lookup bits' = some range' → tree'.lookup bits' = some range' := by
  induction bits generalizing tree tree' with
  | nil =>
    cases tree with
    | empty =>
      obtain rfl := Option.some.inj h
      refine ⟨rfl, fun bits' range' h' => ?_⟩
      rw [lookup_empty] at h'
      exact absurd h' (by simp)
    | leaf range' => exact absurd h (by simp [insert])
    | node zero one => exact absurd h (by simp [insert])
  | cons bit bits ih =>
    rw [insert] at h
    obtain ⟨⟨zero, one⟩, hchildren, h⟩ := Option.bind_eq_some_iff.mp h
    have hnil := lookup_nil_of_children hchildren
    have hcons := lookup_of_children hchildren
    cases bit with
    | true =>
      obtain ⟨one', hone, hnode⟩ := Option.bind_eq_some_iff.mp h
      obtain rfl := Option.some.inj hnode
      obtain ⟨hnew, hold⟩ := ih hone
      refine ⟨hnew, fun bits' range' h' => ?_⟩
      cases bits' with
      | nil => rw [hnil] at h'; exact absurd h' (by simp)
      | cons bit' bits' =>
        rw [hcons] at h'
        cases bit' with
        | true => exact hold bits' range' h'
        | false => exact h'
    | false =>
      obtain ⟨zero', hzero, hnode⟩ := Option.bind_eq_some_iff.mp h
      obtain rfl := Option.some.inj hnode
      obtain ⟨hnew, hold⟩ := ih hzero
      refine ⟨hnew, fun bits' range' h' => ?_⟩
      cases bits' with
      | nil => rw [hnil] at h'; exact absurd h' (by simp)
      | cons bit' bits' =>
        rw [hcons] at h'
        cases bit' with
        | true => exact h'
        | false => exact hold bits' range' h'

/-- A code word that can be looked up is read. -/
theorem reads_read {tree : Tree} {bits : List Bool} {range : Range}
    (h : tree.lookup bits = some range) : Reads False tree.read bits range := by
  induction tree generalizing bits with
  | empty => rw [lookup_empty] at h; exact absurd h (by simp)
  | leaf range' =>
    cases bits with
    | nil =>
      obtain rfl := Option.some.inj h
      exact reads_pure range'
    | cons bit bits => exact absurd h (by simp [lookup])
  | node zero one ihzero ihone =>
    cases bits with
    | nil => exact absurd h (by simp [lookup])
    | cons bit bits =>
      have hrest : Reads False (if bit then one.read else zero.read) bits range := by
        cases bit with
        | true => exact ihone h
        | false => exact ihzero h
      intro r tl hle hr hbits
      have hbit := reads_readBit bit r (bits ++ tl) hle hr hbits
      have hread := (reads_readBit bit).bind (f := fun b => if b then one.read else zero.read)
        hrest False.elim r tl hle hr hbits
      simp only [Bind.bind, StateT.bind, Except.bind, hbit] at hread
      rw [read]
      simp only [hbit]
      cases bit with
      | true => exact hread
      | false => exact hread

end Tree

namespace Table

/-- The code words of all used lines can be looked up. -/
theorem lookup_of_insertAll {entries : List Entry} {tree tree' : Tree}
    (h : insertAll tree entries = some tree') :
    (∀ entry ∈ entries, entry.line.used = true →
        tree'.lookup entry.bits = some entry.line.range) ∧
      ∀ bits range, tree.lookup bits = some range → tree'.lookup bits = some range := by
  induction entries generalizing tree with
  | nil =>
    obtain rfl := Option.some.inj h
    exact ⟨fun entry hentry => absurd hentry List.not_mem_nil, fun _ _ h' => h'⟩
  | cons entry entries ih =>
    rw [insertAll] at h
    split at h
    · next hused =>
      obtain ⟨tree'', hinsert, h⟩ := Option.bind_eq_some_iff.mp h
      obtain ⟨hnew, hold⟩ := Tree.lookup_insert hinsert
      obtain ⟨hentries, hkept⟩ := ih h
      refine ⟨fun entry' hentry' hused' => ?_, fun bits range h' => hkept _ _ (hold _ _ h')⟩
      rcases List.mem_cons.mp hentry' with rfl | hentry'
      · exact hkept _ _ hnew
      · exact hentries entry' hentry' hused'
    · next hunused =>
      obtain ⟨hentries, hkept⟩ := ih h
      refine ⟨fun entry' hentry' hused' => ?_, hkept⟩
      rcases List.mem_cons.mp hentry' with rfl | hentry'
      · exact absurd hused' hunused
      · exact hentries entry' hentry' hused'

end Table
end Bilevel.Huffman

import Mathlib.Data.List.Basic
import Mathlib.Data.Prod.Lex

/-!
# Stable sorting

A list is sorted stably by a key if it is in the order of the keys and the elements of one key stand
as they stood in the list that was given. Nothing is lost and nothing is added.

## Main definitions

* `StablySorted` — a list that is sorted stably by a key.

## Main results

* `stablySorted_mergeSort` — merge sort is stable.
* `StablySorted.map` — images under a map that keeps the keys.
-/

namespace Bilevel

variable {α β κ : Type} [LinearOrder κ]

/-- A list that is in the order of a key, where the elements of one key stand as in the list that
was given. -/
structure StablySorted (key : α → κ) (given sorted : List α) : Prop where
  perm : sorted.Perm given
  ascending : sorted.Pairwise fun a b => key a ≤ key b
  stable : ∀ k, (sorted.filter fun a => key a = k) = given.filter fun a => key a = k

/-- Sorting by a test that compares keys. The elements of one key are a sublist that is sorted
already, so that merging leaves them as they stand. -/
theorem stablySorted_mergeSort {key : α → κ} {before : α → α → Bool}
    (hbefore : ∀ a b, before a b = true ↔ key a ≤ key b) (given : List α) :
    StablySorted key given (given.mergeSort before) := by
  have htrans : ∀ a b c, before a b = true → before b c = true → before a c = true := by
    intro a b c hab hbc
    exact (hbefore a c).mpr (((hbefore a b).mp hab).trans ((hbefore b c).mp hbc))
  have htotal : ∀ a b, (before a b || before b a) = true := by
    intro a b
    rw [Bool.or_eq_true, hbefore, hbefore]
    exact le_total (key a) (key b)
  have hperm := List.mergeSort_perm given before
  refine ⟨hperm, (List.pairwise_mergeSort htrans htotal given).imp fun h => (hbefore _ _).mp h, ?_⟩
  intro k
  have hpairwise : (given.filter fun a => key a = k).Pairwise fun a b => before a b = true := by
    refine List.pairwise_of_forall_mem_list fun a ha b hb => (hbefore a b).mpr ?_
    have hka : key a = k := by simpa using (List.mem_filter.mp ha).2
    have hkb : key b = k := by simpa using (List.mem_filter.mp hb).2
    exact (hka.trans hkb.symm).le
  have hsub := (List.sublist_mergeSort htrans htotal hpairwise List.filter_sublist).filter
    fun a => decide (key a = k)
  rw [List.filter_filter] at hsub
  simp only [Bool.and_self] at hsub
  exact (hsub.eq_of_length (hperm.filter _).length_eq.symm).symm

namespace StablySorted

variable {key : α → κ} {given sorted : List α}

/-- Elements can be replaced by others with the same keys. -/
theorem map (h : StablySorted key given sorted) {key' : β → κ} {f : α → β}
    (hkey : ∀ a ∈ given, key' (f a) = key a) :
    StablySorted key' (given.map f) (sorted.map f) := by
  have hkey' : ∀ a ∈ sorted, key' (f a) = key a := fun a ha => hkey a (h.perm.mem_iff.mp ha)
  refine ⟨h.perm.map f, List.pairwise_map.mpr ?_, fun k => ?_⟩
  · refine h.ascending.imp_of_mem fun ha hb hle => ?_
    rwa [hkey' _ ha, hkey' _ hb]
  · have hfilter : ∀ {as : List α}, (∀ a ∈ as, key' (f a) = key a) →
        ((as.map f).filter fun b => key' b = k) = (as.filter fun a => key a = k).map f := by
      intro as has
      rw [List.filter_map]
      congr 1
      refine List.filter_congr fun a ha => ?_
      simp only [Function.comp_apply, has a ha]
    rw [hfilter hkey', hfilter hkey, h.stable k]

end StablySorted
end Bilevel

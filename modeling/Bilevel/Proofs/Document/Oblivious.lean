import Bilevel.Proofs.Document.Step

/-!
# What a segment can't tell apart

A segment sees of an assembly its own page and what it refers to. Two assemblies that look the same
to it in this respect, whatever else may be different about them, are dealt with alike, and look the
same afterwards.

## Main definitions

* `Assembly.Oblivious` — a segment can't tell related assemblies apart.

## Main results

* `Assembly.Oblivious.alike_decode`, `Assembly.Oblivious.process` — related assemblies stay related.
-/

namespace Bilevel
namespace Assembly

/-- A segment can't tell assemblies apart between which the relation `R` holds, each with the stores
that were shared beforehand; what it does to both keeps the relation. -/
structure Oblivious (shared shared' : Option Store) (segment : Segment)
    (R : Assembly → Assembly → Prop) : Prop where
  page_eq : ∀ {a b}, R a b →
    a.openPages[segment.header.page]? = b.openPages[segment.header.page]?
  lookup_eq : ∀ {a b}, R a b → ∀ n ∈ segment.header.referred,
    Store.lookup n (a.stores shared) = Store.lookup n (b.stores shared')
  passesOver_eq : ∀ {a b}, R a b →
    a.passesOver segment.header.page = b.passesOver segment.header.page
  setPage : ∀ {a b}, R a b → ∀ page,
    R (a.setPage segment.header.page page) (b.setPage segment.header.page page)
  endPage : ∀ {a b}, R a b → R (a.endPage segment.header.page) (b.endPage segment.header.page)
  fail : ∀ {a b}, R a b → ∀ error,
    R (a.fail segment.header.page (some segment.header.number) error)
      (b.fail segment.header.page (some segment.header.number) error)
  /-- The segment stores the same under its own number in both. -/
  setStore : ∀ {a b}, R a b → ∀ {s t},
    (∀ n, n ≠ segment.header.number → SameAt n s a.store ∧ SameAt n t b.store) →
    (SameAt segment.header.number a.store b.store → SameAt segment.header.number s t) →
    R { a with store := s } { b with store := t }

namespace Oblivious

variable {shared shared' : Option Store} {segment : Segment} {R : Assembly → Assembly → Prop}
  {a b : Assembly} (hR : Oblivious shared shared' segment R) (h : R a b)

include hR h

theorem page_alike : a.page segment.header.page = b.page segment.header.page := by
  rw [Assembly.page, Assembly.page, hR.page_eq h]

theorem gather_eq : SymbolInputs.gather (a.stores shared) segment.header.referred =
    SymbolInputs.gather (b.stores shared') segment.header.referred := by
  have hlookup := hR.lookup_eq h
  unfold SymbolInputs.gather
  generalize ({} : SymbolInputs) = inputs
  generalize segment.header.referred = referred at hlookup
  induction referred generalizing inputs with
  | nil => rfl
  | cons n referred ih =>
    have hrest := fun inputs => ih inputs fun m hm => hlookup m (List.mem_cons_of_mem _ hm)
    simp only [List.foldlM_cons, hlookup n List.mem_cons_self, hrest]

variable (settings : DecodeSettings)

theorem alike_place (use : RegionUse) (region : Region) : Alike R
    (a.place settings segment.header use region) (b.place settings segment.header use region) := by
  unfold place
  split
  · refine .ok (hR.setStore h (fun n hn => ⟨.insertRegion hn region, .insertRegion hn region⟩)
      fun hs => ⟨hs.dictionaries, hs.tables, ?_, hs.decoded⟩)
    rw [Numbered.get?_insert_self, Numbered.get?_insert_self]
  · rw [hR.page_alike h]
    exact .bind_same fun page => .bind_same fun drawn => .ok (hR.setPage h drawn)

theorem alike_addLayout (use : RegionUse) (decoded : TextRegion) : Alike R
    (a.addLayout segment.header use decoded) (b.addLayout segment.header use decoded) := by
  unfold addLayout
  split
  · exact .ok h
  · rw [hR.page_alike h]
    exact .bind_same fun page => .ok (hR.setPage h _)

theorem alike_reference : Alike (fun x y => x.1 = y.1 ∧ R x.2 y.2)
    (a.reference settings shared segment) (b.reference settings shared' segment) := by
  unfold reference
  refine .bind_same fun info => ?_
  dsimp only
  split
  · next number rest href =>
    rw [hR.lookup_eq h number (href ▸ List.mem_cons_self)]
    refine .bind_same fun stored => ?_
    split
    · exact .ok ⟨rfl, h⟩
    · exact .error _
  · rw [hR.page_alike h]
    exact .bind_same fun page => .bind_same fun room => .bind_same fun crop =>
      .ok ⟨rfl, hR.setPage h room⟩

theorem alike_decodeRegion (use : RegionUse) (coding : RegionCoding) : Alike R
    (a.decodeRegion settings shared segment use coding)
    (b.decodeRegion settings shared' segment use coding) := by
  cases coding with
  | halftone => exact .error _
  | generic =>
    unfold decodeRegion
    rw [hR.page_alike h]
    exact .bind_same fun _ => .bind_same fun region => hR.alike_place h settings use region
  | text =>
    unfold decodeRegion decodeText
    rw [hR.page_alike h, hR.gather_eq h]
    exact .bind_same fun _ => .bind_same fun inputs => .bind_same fun decoded =>
      (hR.alike_addLayout h use decoded).bind fun a b h => hR.alike_place h settings use _
  | refinement =>
    unfold decodeRegion decodeRefinement
    rw [hR.page_alike h]
    refine .bind_same fun _ => (hR.alike_reference h settings).bind ?_
    rintro ⟨bitmap, a⟩ ⟨_, b⟩ ⟨rfl, h⟩
    exact .bind_same fun region => hR.alike_place h settings use region

/-- Related assemblies deal alike with the segment. -/
theorem alike_decode : Alike R (a.decode settings shared segment)
    (b.decode settings shared' segment) := by
  unfold decode
  split
  · unfold startPage
    dsimp only
    have hcontains : a.openPages.contains segment.header.page =
        b.openPages.contains segment.header.page := by
      rw [Bool.eq_iff_iff, Std.ExtTreeMap.contains_iff_mem, Std.ExtTreeMap.contains_iff_mem,
        Std.ExtTreeMap.mem_iff_isSome_getElem?, Std.ExtTreeMap.mem_iff_isSome_getElem?,
        hR.page_eq h]
    rw [hcontains]
    split
    · exact .error _
    · exact .bind_same fun info => .bind_same fun page => .ok (hR.setPage h page)
  · rw [hR.page_alike h]
    exact .bind_same fun _ => .ok (hR.endPage h)
  · unfold endStripe
    dsimp only
    rw [hR.page_alike h]
    exact .bind_same fun _ => .bind_same fun page => .bind_same fun height =>
      .bind_same fun grown => .ok (hR.setPage h grown)
  iterate 4 exact .ok h
  · refine .bind_same fun table => .ok (hR.setStore h
      (fun n hn => ⟨.insertTable hn table, .insertTable hn table⟩) fun hs =>
        ⟨hs.dictionaries, ?_, hs.regions, hs.decoded⟩)
    rw [Numbered.get?_insert_self, Numbered.get?_insert_self]
  · unfold addDictionary
    rw [hR.gather_eq h]
    refine .bind_same fun inputs => .bind_same fun dictionary => .ok (hR.setStore h
      (fun n hn => ⟨.insertDictionary hn dictionary, .insertDictionary hn dictionary⟩) fun hs =>
        ⟨?_, hs.tables, hs.regions, hs.decoded⟩)
    rw [Numbered.get?_insert_self, Numbered.get?_insert_self]
  · exact .error _
  · exact hR.alike_decodeRegion h settings _ _

theorem process : R (a.process settings shared segment) (b.process settings shared' segment) := by
  have hdecode := hR.alike_decode h settings
  unfold Assembly.process
  dsimp only
  rw [hR.passesOver_eq h]
  split
  · exact h
  · revert hdecode
    generalize a.decode settings shared segment = x
    generalize b.decode settings shared' segment = y
    rintro (⟨hc⟩ | ⟨e⟩)
    · exact hR.setStore hc
        (fun n hn => ⟨sameAt_noteDecoded_of_ne hn, sameAt_noteDecoded_of_ne hn⟩)
        fun hs => sameAt_noteDecoded hs _
    · exact hR.fail h e

end Oblivious

end Assembly
end Bilevel

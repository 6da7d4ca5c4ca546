import Bilevel.Proofs.Symbol.Acceptance

/-!
# The same dictionary in both codings

A dictionary is the list of its exported symbols, in the order of their sizes. This list doesn't
depend on how the dictionary is coded: whether its symbols are written as decisions, with whatever
template, or side by side among Huffman codes, the same symbols come back.

## Main results

* `Symbol.dictionary_roundTrip` — the exported symbols come back in the order of their sizes.
-/

namespace Bilevel.Symbol

variable {symbols : List Bitmap} {exports : List Bool}

theorem getElem?_of_mem_exportedOf {i : Nat} (h : i ∈ exportedOf symbols exports) :
    symbols[i]? = some (symbols.getD i (.blank 0 0)) := by
  obtain ⟨p, hp, rfl⟩ := List.mem_map.mp (List.mem_of_mem_filter h)
  rw [List.getD_eq_getElem?_getD, getElem?_of_mem_orderOf hp, Option.getD_some]

/-- There is a symbol at every exported place. -/
theorem map_some_exportedOf :
    ((exportedOf symbols exports).filterMap fun i => symbols[i]?).map some =
      (exportedOf symbols exports).map fun i => symbols[i]? := by
  have hget := fun i (hi : i ∈ exportedOf symbols exports) => getElem?_of_mem_exportedOf hi
  rw [List.filterMap_eq_map_iff_forall_eq_some.mpr hget, List.map_map]
  exact List.map_congr_left fun i hi => (hget i hi).symm

/-- A dictionary is written in either coding, whatever symbols of moderate size it has and
whichever of them it exports. The symbols are sorted stably by height and width, and those that are
exported come back in this order. -/
theorem dictionary_roundTrip {settings : DecodeSettings}
    (hsettings : 0x40000000 ≤ settings.maxPixelCount) (h : Storable symbols)
    (hpos : ∀ s ∈ symbols, 0 < s.width ∧ 0 < s.height)
    (hexports : exports.length = symbols.length) :
    ∃ (order exported : List Nat) (decoded : Array Bitmap),
      StablySorted (sizeAt symbols) (List.range symbols.length) order ∧
      exported = order.filter (fun i => exports.getD i false) ∧
      decoded.toList.map some = exported.map (fun i => symbols[i]?) ∧
      ∀ coding, ∃ data, encode symbols exports coding = .ok ⟨data, order, exported⟩ ∧
        decode settings data #[] [] none = .ok ⟨decoded, none⟩ := by
  refine ⟨_, exportedOf symbols exports, _, stablySorted_order symbols, rfl, map_some_exportedOf,
    fun coding => ?_⟩
  obtain ⟨data, hdata⟩ := exists_encode h hpos hexports coding
  exact ⟨data, hdata, decode_encode h hsettings hdata⟩

/-- Symbols that aren't given in the order of their sizes, two of which have the same size, and a
dictionary without symbols. -/
theorem dictionary_roundTrip_unsorted :
    let dot := (Bitmap.blank 1 1).set 0 0 true
    let symbols := [.blank 9 2, .blank 3 1, dot, .blank 1 1]
    let exports := [true, false, true, true]
    (∃ (order exported : List Nat) (decoded : Array Bitmap),
      StablySorted (sizeAt symbols) [0, 1, 2, 3] order ∧
      exported = order.filter (fun i => exports.getD i false) ∧
      decoded.toList.map some = exported.map (fun i => symbols[i]?) ∧
      ∀ coding, ∃ data, encode symbols exports coding = .ok ⟨data, order, exported⟩ ∧
        decode {} data #[] [] none = .ok ⟨decoded, none⟩) ∧
    ∃ (order exported : List Nat) (decoded : Array Bitmap),
      StablySorted (sizeAt []) [] order ∧
      exported = order.filter (fun i => ([] : List Bool).getD i false) ∧
      decoded.toList.map some = exported.map (fun i => ([] : List Bitmap)[i]?) ∧
      ∀ coding, ∃ data, encode [] [] coding = .ok ⟨data, order, exported⟩ ∧
        decode {} data #[] [] none = .ok ⟨decoded, none⟩ := by
  intro dot symbols exports
  have hsettings : 0x40000000 ≤ ({} : DecodeSettings).maxPixelCount := le_rfl
  have hstorable : Storable symbols := by decide +kernel
  have hpos : ∀ s ∈ symbols, 0 < s.width ∧ 0 < s.height := by decide +kernel
  exact ⟨dictionary_roundTrip hsettings hstorable hpos rfl,
    dictionary_roundTrip hsettings (by decide) (fun s hs => absurd hs List.not_mem_nil) rfl⟩

end Bilevel.Symbol

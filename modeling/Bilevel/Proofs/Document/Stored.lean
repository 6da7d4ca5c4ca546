import Bilevel.Document.Decode
import Bilevel.Proofs.Document.Visits

/-!
# What is stored

A store gets dictionaries, tables and regions only by decoding them, and a dictionary is decoded
from what is in the stores. So a property that decoding hands on, from what goes into a dictionary
to the dictionary, holds of everything that is ever stored.

## Main definitions

* `Store.All` — a property of everything in a store.
* `Stored.Kept` — a property that decoding hands on.

## Main results

* `SymbolInputs.from_gather` — what a dictionary gets comes from the stores.
* `Assembly.all_visits`, `Assembly.all_run`, `Globals.all_ofBytes` — it holds at any time of what is
  stored.
-/

namespace Bilevel

namespace Store

/-- The store has a dictionary, a table or a region, under any number. -/
def Holds (store : Store) : Stored → Prop
  | .dictionary dictionary => ∃ n : Nat, store.dictionaries[n]? = some dictionary
  | .table table => ∃ n : Nat, store.tables[n]? = some table
  | .region region => ∃ n : Nat, store.regions[n]? = some region

/-- Everything in the store has a property. -/
def All (P : Stored → Prop) (store : Store) : Prop := ∀ stored, store.Holds stored → P stored

variable {P : Stored → Prop} {store : Store} {stores : List Store} {n : Nat} {stored : Stored}

theorem holds_of_get? (h : store.get? n = some stored) : store.Holds stored := by
  unfold get? at h
  split at h
  · next hd =>
    cases h
    exact ⟨n, hd⟩
  · split at h
    · next ht =>
      cases h
      exact ⟨n, ht⟩
    · obtain ⟨region, hr, rfl⟩ := Option.map_eq_some_iff.mp h
      exact ⟨n, hr⟩

/-- What is found is in one of the stores. -/
theorem all_lookup (hstores : ∀ store ∈ stores, store.All P) (h : lookup n stores = .ok stored) :
    P stored := by
  fun_induction lookup n stores with
  | case1 => cases h
  | case2 store rest found hfound =>
    cases h
    exact hstores store List.mem_cons_self _ (holds_of_get? hfound)
  | case3 store rest nothing decoded => cases h
  | case4 store rest nothing never ih =>
    exact ih (fun store' h' => hstores store' (List.mem_cons_of_mem store h')) h

theorem all_empty : All P {} := by
  intro stored h
  cases stored <;> obtain ⟨n, hn⟩ := h <;> simp at hn

theorem All.insertDictionary (h : store.All P) {dictionary : SymbolDictionary}
    (hd : P (.dictionary dictionary)) :
    All P { store with dictionaries := store.dictionaries.insert n dictionary } := by
  intro stored hstored
  cases stored with
  | dictionary d =>
    obtain ⟨m, hm⟩ := hstored
    exact Numbered.forall_insert (fun m d hm => h (.dictionary d) ⟨m, hm⟩) hd m d hm
  | table table => exact h (.table table) hstored
  | region region => exact h (.region region) hstored

theorem All.insertTable (h : store.All P) {table : Huffman.Table} (ht : P (.table table)) :
    All P { store with tables := store.tables.insert n table } := by
  intro stored hstored
  cases stored with
  | dictionary dictionary => exact h (.dictionary dictionary) hstored
  | table t =>
    obtain ⟨m, hm⟩ := hstored
    exact Numbered.forall_insert (fun m t hm => h (.table t) ⟨m, hm⟩) ht m t hm
  | region region => exact h (.region region) hstored

theorem All.insertRegion (h : store.All P) {region : Region} (hr : P (.region region)) :
    All P { store with regions := store.regions.insert n region } := by
  intro stored hstored
  cases stored with
  | dictionary dictionary => exact h (.dictionary dictionary) hstored
  | table table => exact h (.table table) hstored
  | region r =>
    obtain ⟨m, hm⟩ := hstored
    exact Numbered.forall_insert (fun m r hm => h (.region r) ⟨m, hm⟩) hr m r hm

theorem All.noteDecoded {b : Assembly} {number : Nat} (h : b.store.All P) :
    (b.noteDecoded number).store.All P := by
  intro stored hstored
  cases stored with
  | dictionary dictionary => exact h (.dictionary dictionary) hstored
  | table table => exact h (.table table) hstored
  | region region => exact h (.region region) hstored

end Store

/-! ## What dictionaries and text regions get -/

namespace SymbolInputs

variable {P : Stored → Prop} {stores : List Store} {inputs inputs' : SymbolInputs}

/-- The symbols are those of dictionaries with a property, which the tables have as well, and the
last dictionary. -/
structure From (P : Stored → Prop) (inputs : SymbolInputs) : Prop where
  symbols : ∀ symbol ∈ inputs.symbols, ∃ dictionary : SymbolDictionary,
    P (.dictionary dictionary) ∧ symbol ∈ dictionary.symbols
  tables : ∀ table ∈ inputs.tables, P (.table table)
  last : ∀ number dictionary, inputs.last = some (number, dictionary) → P (.dictionary dictionary)

theorem From.add (h : inputs.From P) {number : Nat} {stored : Stored} (hstored : P stored)
    (hadd : inputs.add number stored = .ok inputs') : inputs'.From P := by
  cases stored with
  | dictionary dictionary =>
    cases hadd
    refine ⟨fun symbol hsymbol => ?_, h.tables, fun n d hlast => ?_⟩
    · rcases Array.mem_append.mp hsymbol with hsymbol | hsymbol
      · exact h.symbols symbol hsymbol
      · exact ⟨dictionary, hstored, hsymbol⟩
    · cases hlast
      exact hstored
  | table table =>
    cases hadd
    refine ⟨h.symbols, fun t ht => ?_, h.last⟩
    rcases List.mem_append.mp ht with ht | ht
    · exact h.tables t ht
    · obtain rfl := List.mem_singleton.mp ht
      exact hstored
  | region region => cases hadd

/-- What is gathered comes from the stores. -/
theorem from_gather (hstores : ∀ store ∈ stores, store.All P) {referred : List Nat}
    (h : gather stores referred = .ok inputs) : inputs.From P := by
  have hstart : From P {} := ⟨by simp, by simp, by simp⟩
  unfold gather at h
  generalize ({} : SymbolInputs) = start at h hstart
  induction referred generalizing start with
  | nil =>
    cases h
    exact hstart
  | cons number referred ih =>
    rw [List.foldlM_cons] at h
    obtain ⟨next, hnext, h⟩ := bind_eq_ok.mp h
    obtain ⟨stored, hlookup, hadd⟩ := bind_eq_ok.mp hnext
    exact ih next h (hstart.add (Store.all_lookup hstores hlookup) hadd)

end SymbolInputs

/-! ## Decoding -/

/-- A property that decoding hands on to what it stores. -/
structure Stored.Kept (settings : DecodeSettings) (P : Stored → Prop) : Prop where
  dictionary {data : Bytes} {inputs : SymbolInputs} {dictionary : SymbolDictionary}
    (hinputs : inputs.From P)
    (h : Symbol.decode settings data inputs.symbols inputs.tables inputs.last = .ok dictionary) :
    P (.dictionary dictionary)
  table {data : Bytes} {table : Huffman.Table} (h : Huffman.Table.read data = .ok table) :
    P (.table table)
  generic {data : Bytes} {openLength : Bool} {region : Region}
    (h : Generic.decodeRegion settings data openLength = .ok region) : P (.region region)
  refinement {data : Bytes} {reference : Bitmap} {region : Region}
    (h : Refinement.decodeRegion settings data reference = .ok region) : P (.region region)
  text {data : Bytes} {symbols : Array Bitmap} {tables : List Huffman.Table} {decoded : TextRegion}
    (h : Text.decodeRegion settings data symbols tables = .ok decoded) : P (.region decoded.region)

namespace Assembly

variable {settings : DecodeSettings} {P : Stored → Prop} {shared : Option Store} {a b : Assembly}
  {segment : Segment}

theorem Placed.all {header : SegmentHeader} {use : RegionUse} {region : Region}
    (h : Placed settings header use region a b) (ha : a.store.All P)
    (hregion : P (.region region)) : b.store.All P := by
  cases h with
  | stored _ eq => exact eq ▸ ha.insertRegion hregion
  | drawn _ _ _ eq => exact eq ▸ ha

theorem Noted.store_eq {header : SegmentHeader} {use : RegionUse} {decoded : TextRegion}
    (h : Noted header use decoded a b) : b.store = a.store := by
  cases h with
  | stored _ eq => rw [eq]
  | noted _ _ eq => exact eq ▸ rfl

theorem Referenced.store_eq {bitmap : Bitmap}
    (h : Referenced settings shared segment a bitmap b) : b.store = a.store := by
  cases h with
  | region _ _ _ _ eq => rw [eq]
  | page _ _ _ _ _ eq => exact eq ▸ rfl

variable (hkept : Stored.Kept settings P) (hshared : ∀ store ∈ shared, store.All P)

theorem all_stores (hshared : ∀ store ∈ shared, store.All P) (ha : a.store.All P) :
    ∀ store ∈ a.stores shared, store.All P := by
  intro store hstore
  rcases List.mem_cons.mp hstore with rfl | hstore
  · exact ha
  · exact hshared store (Option.mem_toList.mp hstore)

include hkept

theorem DecodedRegion.all {use : RegionUse} {coding : RegionCoding}
    (h : DecodedRegion settings shared segment use a b coding) (ha : a.store.All P) :
    b.store.All P := by
  cases h with
  | generic _ decode placed => exact placed.all ha (hkept.generic decode)
  | text _ _ decode noted placed => exact placed.all (noted.store_eq ▸ ha) (hkept.text decode)
  | refinement _ referenced decode placed =>
    exact placed.all (referenced.store_eq ▸ ha) (hkept.refinement decode)

include hshared

theorem all_decode (ha : a.store.All P) (h : a.decode settings shared segment = .ok b) :
    b.store.All P := by
  cases decodes_of_decode h with
  | startPage _ _ _ _ eq | endStripe _ _ _ _ _ eq | ignored _ eq => exact eq ▸ ha
  | endPage _ _ eq =>
    rw [eq, endPage_store]
    exact ha
  | table _ read eq => exact eq ▸ ha.insertTable (hkept.table read)
  | dictionary _ gather decode eq =>
    have hfrom := SymbolInputs.from_gather (all_stores hshared ha) gather
    exact eq ▸ ha.insertDictionary (hkept.dictionary hfrom decode)
  | region _ decoded => exact decoded.all hkept ha

theorem all_process (ha : a.store.All P) : (a.process settings shared segment).store.All P := by
  rcases processed_process settings shared segment a with ⟨-, eq⟩ | ⟨-, b, ok, eq⟩ | ⟨-, e, -, eq⟩
  · rw [eq]
    exact ha
  · rw [eq]
    exact (all_decode hkept hshared ha ok).noteDecoded
  · rw [eq, fail_store]
    exact ha

theorem all_take (ha : a.store.All P) (item : StreamItem) :
    (a.take settings shared item).store.All P := by
  cases item with
  | segment s => exact all_process hkept hshared ha
  | invalid header error =>
    rw [take, fail_store]
    exact ha
  | broken header error => exact ha

/-- It holds of what is stored when a run comes to an item. -/
theorem all_visits (ha : a.store.All P) (items : List StreamItem) :
    ∀ v ∈ visits settings shared a items, v.state.store.All P :=
  forall_visits (P := fun a => a.store.All P) ha
    fun v _ _ hv => all_take hkept hshared hv v.item

omit hkept hshared in
theorem store_foldl {α : Type} {f : Assembly → α → Assembly} (hf : ∀ a x, (f a x).store = a.store)
    (xs : List α) (a : Assembly) : (xs.foldl f a).store = a.store := by
  induction xs generalizing a with
  | nil => rfl
  | cons x xs ih => rw [List.foldl_cons, ih, hf]

/-- It holds of what a run has stored in the end. -/
theorem all_run (ha : a.store.All P) (items : List StreamItem) :
    (run settings shared a items).store.All P := by
  have hend : ∀ b : Assembly, b.endAll.store = b.store := fun b => store_foldl endPage_store _ b
  induction items generalizing a with
  | nil =>
    rw [run, hend]
    exact ha
  | cons item items ih =>
    cases hon : a.goesOn item with
    | true =>
      rw [run_of_goesOn hon]
      exact ih (all_take hkept hshared ha item)
    | false =>
      cases item with
      | segment s =>
        have hends : a.ends s = true := by simpa [goesOn] using hon
        rw [run, if_pos hends, hend]
        exact all_process hkept hshared ha
      | invalid header error => cases hon
      | broken header error =>
        rw [run, failAll]
        rw [store_foldl (fun a n => fail_store a n _ error)]
        exact ha

end Assembly

/-- It holds of what is shared. -/
theorem Globals.all_ofBytes {settings : DecodeSettings} {P : Stored → Prop}
    (hkept : Stored.Kept settings P) (data : Bytes) : (ofBytes settings data).store.All P := by
  have hshared : ∀ store ∈ (none : Option Store), store.All P := by simp
  exact Assembly.all_run hkept hshared Store.all_empty _

end Bilevel

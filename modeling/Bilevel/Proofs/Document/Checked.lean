import Bilevel.Proofs.Document.Stored
import Bilevel.Proofs.Huffman.Arena
import Bilevel.Proofs.Symbol.Checked

/-!
# Bounds

Nothing that decoding accesses lies out of bounds, whatever the stream. For most accesses that is so
whatever is decoded: the size of a bitmap fits its data, contexts are rows of the table of
estimates, and the contexts of a region are made for its own template. Dictionaries are different,
since they can go on with contexts that another one has left behind, from an earlier segment or from
shared ones. So what a dictionary leaves behind has to fit its templates in everything that is
stored at any time.

## Main definitions

* `InBounds` — the accesses that stay in bounds whatever is decoded.
* `SymbolInputs.InBounds` — those of a dictionary that gets certain inputs.

## Main results

* `InBounds.holds` — the former do.
* `accesses_in_bounds` — and so does every dictionary of a stream.
-/

namespace Bilevel

/-! ## Accesses of any region -/

/-- Checked access gives what access without checks does, in whatever is decoded. -/
structure InBounds : Prop where
  /-- A fresh context has the first row of the table of estimates. -/
  fresh : ({} : Mq.Context).raw = {}
  context (cx : Mq.Context) : cx.raw.index < 47 ∧ cx.raw.mps ≤ 1
  decision (d : Mq.Decoder) (cx : Mq.Context) : d.decodeRaw? cx.raw =
    some ((d.decode cx).1.toNat, (d.decode cx).2.1.raw, (d.decode cx).2.2)
  get (b : Bitmap) (x y : Nat) : b.get? x y = some (b.get x y)
  set (b : Bitmap) (x y : Nat) (black : Bool) : b.set? x y black = some (b.set x y black)
  combine (b other : Bitmap) (x y : Int) (op : CombinationOperator) :
    b.combine? other x y op = some (b.combine other x y op).data
  window (b : Bitmap) (x y width height : Nat) :
    b.window? x y width height = some (b.window x y width height)
  generic (params : GenericParams) (decoder : Mq.Decoder) (bitmap : Bitmap) :
    Generic.decodeBitmap? params decoder params.freshContexts bitmap =
      some (Generic.decodeBitmap params decoder params.freshContexts bitmap)
  refinement (params : RefinementParams) (reference : Bitmap) (decoder : Mq.Decoder)
    (bitmap : Bitmap) :
    Refinement.decodeBitmap? params reference decoder params.freshContexts bitmap =
      some (Refinement.decodeBitmap params reference decoder params.freshContexts bitmap)
  text (header : Text.Header) (symbols : Array Bitmap) (tables : List Huffman.Table) (r : Reader)
    (s : Source) (h : Text.sourceOf header symbols.size tables r = .ok s) (bitmap : Bitmap) :
    Checked (Text.decodeInstances header.params symbols header.count bitmap) s
  table (lines : List Huffman.Line) :
    (∃ e, Huffman.Table.build lines = .error e ∧
      Huffman.Arena.build? lines = some (.error e)) ∨
    ∃ table arena, Huffman.Table.build lines = .ok table ∧
      Huffman.Arena.build? lines = some (.ok arena) ∧
      ∀ r, arena.decode? r = some (table.decode r)
  standardTable (number : Nat) (table : Huffman.Table)
    (h : Huffman.standardTable number = .ok table) : table.HasArena

theorem InBounds.holds : InBounds where
  fresh := Mq.Context.raw_default
  context cx := ⟨cx.raw_index_lt, cx.raw_mps_le⟩
  decision := Mq.Decoder.decodeRaw?_eq
  get := Bitmap.get?_eq
  set := Bitmap.set?_eq
  combine := Bitmap.combine?_eq
  window := Bitmap.window?_eq
  generic _ _ _ := Generic.decodeBitmap?_eq (Mq.Contexts.size_fresh _)
  refinement _ _ _ _ := Refinement.decodeBitmap?_eq (Mq.Contexts.size_fresh _)
  text header symbols _ _ _ h bitmap :=
    ((Text.madeOf_decodeInstances none header.params symbols header.count bitmap).checked
      (Text.fits_sourceOf h)).1
  table := Huffman.Arena.build?_eq
  standardTable _ _ h := (Huffman.built_of_standardTable h).hasArena

/-! ## What is stored -/

/-- What a dictionary has left behind fits its templates, and a table was built. -/
def Stored.Fit : Stored → Prop
  | .dictionary d => ∀ learnt ∈ d.learnt, learnt.Fit
  | .table t => t.Built
  | .region _ => True

theorem Stored.kept_fit (settings : DecodeSettings) : Stored.Kept settings Stored.Fit where
  dictionary hinputs h := Symbol.fit_of_decode hinputs.last h
  table h := by
    obtain ⟨⟨lines, _⟩, -, h⟩ := bind_eq_ok.mp h
    exact ⟨lines, h⟩
  generic _ := trivial
  refinement _ := trivial
  text _ := trivial

/-- Dictionaries and text regions with these inputs access nothing that isn't there: they get tables
that can be kept in arenas, and whatever a dictionary reads is checked, also if it goes on with the
contexts of the last one. -/
structure SymbolInputs.InBounds (settings : DecodeSettings) (inputs : SymbolInputs) : Prop where
  tables : ∀ table ∈ inputs.tables, table.HasArena
  symbols (header : Symbol.Header) (total : Nat) (r : Reader) (s : Source)
    (h : Symbol.sourceOf header total inputs.tables inputs.last r = .ok s) (limit : Nat) :
    Checked (Symbol.readSymbols settings header inputs.symbols limit) s

theorem SymbolInputs.From.inBounds {inputs : SymbolInputs} (h : inputs.From Stored.Fit)
    (settings : DecodeSettings) : inputs.InBounds settings where
  tables table htable := (h.tables table htable).hasArena
  symbols header _ _ _ hsource limit :=
    ((Symbol.madeOf_readSymbols settings header inputs.symbols limit).checked
      (Symbol.fits_sourceOf h.last hsource)).1

/-! ## Streams -/

open Assembly in
/-- No access of decoding is out of bounds. Whatever the items of a stream and the segments that it
shares, whenever a dictionary is decoded at an item that decoding comes to, everything that it reads
is checked, and what is left behind in the end fits the templates that it was left behind for. -/
theorem accesses_in_bounds (settings : DecodeSettings) (globals : Option Globals)
    (hglobals : ∀ g ∈ globals, ∃ settings data, g = Globals.ofBytes settings data)
    (items : List StreamItem) :
    InBounds ∧
    (∀ v ∈ visits settings (globals.map (·.store)) {} items, ∀ segment,
      v.item = .segment segment → ∀ inputs,
        SymbolInputs.gather (v.state.stores (globals.map (·.store))) segment.header.referred =
          .ok inputs → inputs.InBounds settings) ∧
    ∀ (n : Nat) dictionary,
      (Document.ofItems settings globals items).dictionaries[n]? = some dictionary →
        ∀ learnt ∈ dictionary.learnt, learnt.Fit := by
  have hkept := Stored.kept_fit settings
  have hshared : ∀ store ∈ globals.map (·.store), store.All Stored.Fit := by
    intro store hstore
    obtain ⟨g, hg, rfl⟩ := Option.mem_map.mp hstore
    obtain ⟨earlier, data, rfl⟩ := hglobals g hg
    exact Globals.all_ofBytes (Stored.kept_fit earlier) data
  refine ⟨.holds, fun v hv segment _ inputs hgather => ?_, fun n dictionary hn => ?_⟩
  · have hstores := all_stores hshared (all_visits hkept hshared Store.all_empty items v hv)
    exact (SymbolInputs.from_gather hstores hgather).inBounds settings
  · exact all_run hkept hshared Store.all_empty items (.dictionary dictionary) ⟨n, hn⟩

open Assembly in
/-- A dictionary without symbols keeps its contexts for another one, which refers to it and goes on
with them. Both are decoded, and they leave behind as many contexts as template 2 needs. -/
theorem accesses_in_bounds_continued :
    let globals : Globals := .ofBytes {} #[]
    let dictionary (number : Nat) (referred : List Nat) (flags : UInt8) : Segment :=
      ⟨⟨number, .symbolDictionary, false, [], referred, 1, none⟩,
        #[flags, 0, 2, 0xFF, 0, 0, 0, 0, 0, 0, 0, 0]⟩
    let items : List StreamItem :=
      [.segment (dictionary 0 [] 0x0A), .segment (dictionary 1 [0] 0x0B)]
    let document := Document.ofItems {} (some globals) items
    (∃ settings data, globals = Globals.ofBytes settings data) ∧
      document.failures = #[] ∧
      document.symbolDictionaries.map (fun d => d.2.learnt.map (·.generic.size)) =
        [some 1024, some 1024] ∧
      ∀ v ∈ visits {} (some globals.store) {} items, ∀ segment, v.item = .segment segment →
        ∀ inputs, SymbolInputs.gather (v.state.stores (some globals.store))
          segment.header.referred = .ok inputs → inputs.InBounds {} := by
  intro globals dictionary items document
  obtain ⟨-, h, -⟩ := accesses_in_bounds {} (some globals)
    (fun g hg => ⟨{}, #[], (Option.some.inj hg).symm⟩) items
  exact ⟨⟨{}, #[], rfl⟩, by decide +kernel, by decide +kernel, h⟩

end Bilevel

import Bilevel.Symbol.Dictionary

/-!
# Writing symbol dictionaries

The symbols are written in the order of their heights, and those of one height in the order of
their widths. They are all symbols of their own: no symbol is composed of others, and none comes
from another dictionary.
-/

namespace Bilevel.Symbol

/-- How a dictionary is written. -/
inductive Coding where
  | decisions (template : Template)
  | codes
  deriving DecidableEq, Repr

/-- A dictionary as it is written. -/
structure Encoded where
  data : Bytes
  /-- The places in the given list of the symbols, in the order in which they are written. -/
  order : List Nat
  /-- The places in the given list of the symbols that are exported. -/
  exported : List Nat
  deriving DecidableEq, Repr

/-- Whether a symbol may come before another. -/
def comesBefore (a b : Bitmap) : Bool :=
  decide (a.height < b.height) || (decide (a.height = b.height) && decide (a.width ≤ b.width))

/-- The places of the given symbols in the order in which they are written. -/
def orderOf (symbols : List Bitmap) : List (Bitmap × Nat) :=
  symbols.zipIdx.mergeSort fun a b => comesBefore a.1 b.1

/-- Split symbols into runs of one height. -/
def classesOf : List Bitmap → List (List Bitmap)
  | [] => []
  | symbol :: rest =>
    match classesOf rest with
    | (next :: others) :: classes =>
      if symbol.height = next.height then (symbol :: next :: others) :: classes
      else [symbol] :: (next :: others) :: classes
    | classes => [symbol] :: classes

/-- How the pixels of symbols are coded: no rows are left out. -/
def pixelCoding (template : Template) : GenericParams where
  template := template
  skipsRows := false

/-- The Huffman tables with which dictionaries are written. -/
def standardSelections : Selections := ⟨.standard 4, .standard 2, .standard 1, .standard 1⟩

/-- Write the widths of the symbols of a class, and each time the pixels if they are decisions. -/
def writeWidths (params : GenericParams) : List Bitmap → (width : Nat) → Sink →
    Except EncodeError Sink
  | [], _, sink => sink.writeValue .deltaWidth none
  | symbol :: rest, width, sink => do
    let sink ← sink.writeNumber .deltaWidth ((symbol.width : Int) - width)
    writeWidths params rest symbol.width (sink.writeBitmap params symbol)

/-- The symbols of a class side by side, the first of them in column `x` of a bitmap. -/
def joinFrom (x : Nat) (bitmap : Bitmap) : List Bitmap → Bitmap
  | [] => bitmap
  | symbol :: rest => joinFrom (x + symbol.width) (bitmap.combine symbol x 0 .or) rest

/-- Write the pixels of the symbols of a class behind their widths, unless they are decisions. -/
def writeCollective (height : Nat) (symbols : List Bitmap) : Sink → Except EncodeError Sink
  | sink@(.decisions ..) => .ok sink
  | .codes writer tables =>
    let total := symbols.foldl (· + ·.width) 0
    if 0xFFFFFFFF < total then .error .valueNotRepresentable
    else do
      let writer ← (tables .collectiveSize).encode writer (some 0)
      let collective := joinFrom 0 (Bitmap.blank total height) symbols
      return .codes (writer.align.writeBytes collective.data) tables

/-- Write classes, behind one of a given height. -/
def writeClasses (params : GenericParams) : List (List Bitmap) → (height : Nat) → Sink →
    Except EncodeError Sink
  | [], _, sink => .ok sink
  | [] :: rest, height, sink => writeClasses params rest height sink
  | (first :: others) :: rest, height, sink => do
    let sink ← sink.writeNumber .deltaHeight ((first.height : Int) - height)
    let sink ← writeWidths params (first :: others) 0 sink
    let sink ← writeCollective first.height (first :: others) sink
    writeClasses params rest first.height sink

/-- Write what stands in front of the symbols, up to their counts. -/
def writeFlags (coding : Coding) (w : Writer) : Writer :=
  match coding with
  | .codes => w.writeUnsigned 2 1
  | .decisions template =>
    AtPixel.writeAll (w.writeUnsigned 2 (template.code <<< 10)) template.nominalAt

/-- The sink for the symbols of a dictionary. Codes go behind what `w` has, decisions start anew. -/
def sinkFor (coding : Coding) (w : Writer) : Except EncodeError Sink :=
  match coding with
  | .decisions template =>
    let contexts := (pixelCoding template).freshContexts
    .ok (.decisions .start (SymbolContexts.fresh 0 contexts #[]))
  | .codes =>
    match standardSelections.resolve [] with
    | .ok tables => .ok (.codes w tables)
    | .error _ => .error .valueNotRepresentable

/-- The template with which pixels are coded as decisions. -/
def Coding.template : Coding → Template
  | .decisions template => template
  | .codes => .template0

/-- The data of a dictionary with the given symbols, of which those with a flag that is set are
exported. -/
def encode (symbols : List Bitmap) (exports : List Bool) (coding : Coding) :
    Except EncodeError Encoded :=
  if symbols.any fun s => s.width == 0 || s.height == 0 then .error .emptyBitmap
  else if exports.length ≠ symbols.length then .error .dimensionMismatch
  else if 0xFFFFFFFF < symbols.length then .error .valueNotRepresentable
  else do
    let sorted := orderOf symbols
    let order := sorted.map (·.2)
    let flags := order.map fun i => exports.getD i false
    let exported := order.filter fun i => exports.getD i false
    let w := writeFlags coding .empty
    let w := w.writeUnsigned 4 exported.length |>.writeUnsigned 4 symbols.length
    let sink ← sinkFor coding w
    let sink ← writeClasses (pixelCoding coding.template) (classesOf (sorted.map (·.1))) 0 sink
    let sink ← writeExported flags sink
    let data := match sink with
      | .decisions encoder _ => (w.writeBytes encoder.finish).data
      | .codes writer _ => writer.data
    return { data, order, exported }

end Bilevel.Symbol

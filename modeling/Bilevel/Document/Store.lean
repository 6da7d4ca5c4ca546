import Std.Data.ExtTreeMap
import Std.Data.ExtTreeSet
import Bilevel.Huffman.Custom
import Bilevel.Symbol.Dictionary

/-!
# Stored segments

Dictionaries, tables and intermediate regions are kept by the numbers of their segments, so that
later segments can refer to them. A segment can also refer to what was shared beforehand; its own
stream comes first.
-/

namespace Bilevel

/-- Things by number. -/
abbrev Numbered (α : Type) := Std.ExtTreeMap Nat α

/-- What a segment can refer to. -/
inductive Stored where
  | dictionary (dictionary : SymbolDictionary)
  | table (table : Huffman.Table)
  | region (region : Region)

/-- The segments that were decoded so far, and what they left for later ones. -/
structure Store where
  dictionaries : Numbered SymbolDictionary := ∅
  tables : Numbered Huffman.Table := ∅
  regions : Numbered Region := ∅
  /-- The numbers of all segments that were decoded. -/
  decoded : Std.ExtTreeSet Nat := ∅

namespace Store

/-- What the segment with a given number left. -/
def get? (store : Store) (number : Nat) : Option Stored :=
  match store.dictionaries[number]? with
  | some dictionary => some (.dictionary dictionary)
  | none =>
    match store.tables[number]? with
    | some table => some (.table table)
    | none => store.regions[number]?.map .region

/-- Look for a segment in several stores in turn. -/
def lookup (number : Nat) : List Store → Except DecodeError Stored
  | [] => .error (.reference (.missing number))
  | store :: rest =>
    match store.get? number with
    | some stored => .ok stored
    | none =>
      if number ∈ store.decoded then .error (.reference (.wrongType number)) else lookup number rest

end Store

/-- What a symbol dictionary or a text region gets from the segments to which it refers. -/
structure SymbolInputs where
  /-- The symbols of all dictionaries, one dictionary after the other. -/
  symbols : Array Bitmap := #[]
  tables : List Huffman.Table := []
  /-- The last dictionary, with its number. -/
  last : Option (Nat × SymbolDictionary) := none

namespace SymbolInputs

/-- Take up one more segment. -/
def add (inputs : SymbolInputs) (number : Nat) : Stored → Except DecodeError SymbolInputs
  | .dictionary dictionary =>
    .ok { inputs with
      symbols := inputs.symbols ++ dictionary.symbols
      last := some (number, dictionary) }
  | .table table => .ok { inputs with tables := inputs.tables ++ [table] }
  | .region _ => .error (.reference (.wrongType number))

/-- Take up the segments with the given numbers. -/
def gather (stores : List Store) (referred : List Nat) : Except DecodeError SymbolInputs :=
  referred.foldlM (fun inputs number => do inputs.add number (← Store.lookup number stores)) {}

end SymbolInputs
end Bilevel

import Bilevel.Huffman.Selection
import Bilevel.Mq.Integer
import Bilevel.Mq.SymbolId
import Bilevel.Region.Refinement

/-!
# Quantities in symbol coding

Symbol dictionaries and text regions are made of numbers of several kinds. Each kind has contexts
of its own when it is coded by decisions, and a Huffman table of its own otherwise.
-/

namespace Bilevel

/-- The kinds of numbers in symbol dictionaries and text regions. -/
inductive Quantity where
  /-- The height of the next symbols, relative to the last ones. -/
  | deltaHeight
  /-- The width of the next symbol, relative to the last one of the same height. -/
  | deltaWidth
  /-- The number of symbols that are, or aren't, exported. -/
  | exportRun
  /-- The number of symbols of which a symbol is composed. -/
  | aggregateCount
  /-- The number of bytes of the symbols of one height. -/
  | collectiveSize
  /-- The place of the next strip, relative to the last one. -/
  | deltaStrip
  /-- The place of the first instance in a strip, relative to that in the last strip. -/
  | firstInStrip
  /-- The place of the next instance in a strip, relative to the last one. -/
  | deltaInStrip
  /-- The place of an instance across its strip. -/
  | acrossStrip
  /-- Whether an instance is a refinement of its symbol. -/
  | refined
  /-- The width of a refined instance, relative to its symbol. -/
  | refinedWidth
  | refinedHeight
  /-- The place of a refined instance, relative to its symbol. -/
  | refinedX
  | refinedY
  /-- The number of bytes of a refined instance. -/
  | refinedSize
  deriving DecidableEq, Repr

namespace Quantity

/-- The number of kinds. -/
def count : Nat := 15

def index : Quantity → Nat
  | deltaHeight => 0
  | deltaWidth => 1
  | exportRun => 2
  | aggregateCount => 3
  | collectiveSize => 4
  | deltaStrip => 5
  | firstInStrip => 6
  | deltaInStrip => 7
  | acrossStrip => 8
  | refined => 9
  | refinedWidth => 10
  | refinedHeight => 11
  | refinedX => 12
  | refinedY => 13
  | refinedSize => 14

theorem index_lt (q : Quantity) : q.index < count := by
  cases q <;> decide

theorem index_inj {p q : Quantity} (h : p.index = q.index) : p = q := by
  cases p <;> cases q <;> first | rfl | (simp [index] at h)

end Quantity

/-- All contexts of a symbol dictionary or a text region. -/
structure SymbolContexts where
  /-- The contexts of each kind of number. -/
  numbers : Array Mq.Contexts
  /-- The contexts of symbol numbers, and the number of bits of these. -/
  ids : Mq.Contexts
  idLength : Nat
  /-- The contexts of pixels of symbols. -/
  generic : Mq.Contexts
  /-- The contexts of pixels of refined symbols. -/
  refinement : Mq.Contexts
  deriving DecidableEq, Repr

namespace SymbolContexts

/-- Contexts of which those for numbers are fresh. -/
def fresh (idLength : Nat) (generic refinement : Mq.Contexts) : SymbolContexts where
  numbers := Array.replicate Quantity.count Mq.Integer.freshContexts
  ids := Mq.SymbolId.freshContexts idLength
  idLength := idLength
  generic := generic
  refinement := refinement

/-- The contexts of one kind of number. -/
def of (contexts : SymbolContexts) (q : Quantity) : Mq.Contexts := contexts.numbers.getD q.index #[]

/-- Replace the contexts of one kind of number. -/
def put (contexts : SymbolContexts) (q : Quantity) (learnt : Mq.Contexts) : SymbolContexts :=
  { contexts with numbers := contexts.numbers.setIfInBounds q.index learnt }

end SymbolContexts

/-- The width or the height of a symbol that differs from another one by a given amount. -/
def changeSize (size : Nat) (delta : Int) : Except DecodeError Nat :=
  if FitsWord (size + delta) then .ok (size + delta).toNat
  else .error (.malformed .invalidSymbolSize)

/-- A Huffman table for each kind of number. -/
abbrev QuantityTables := Quantity → Huffman.Table

end Bilevel

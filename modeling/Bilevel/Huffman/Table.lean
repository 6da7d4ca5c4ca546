import Bilevel.Bits.Reader
import Bilevel.Bits.Writer

/-!
# Huffman tables

A table is a list of lines. Each line has a range of values and the length of its code word; the
code words themselves follow from the lengths, in the canonical way. A value is written as the
code word of its line and its place in the range of the line. Decoding walks down the tree of all
code words.
-/

namespace Bilevel.Huffman

/-- The values of a table line. -/
inductive Range where
  /-- The `2 ^ bits` values from `low` on. -/
  | values (low : Int) (bits : Nat)
  /-- All values up to `high`. -/
  | lower (high : Int)
  /-- All values from `low` on. -/
  | upper (low : Int)
  /-- The out-of-band value. -/
  | outOfBand
  deriving DecidableEq, Repr

namespace Range

/-- The number of bits that say which value of the range is meant. -/
def bits : Range → Nat
  | values _ bits => bits
  | lower _ | upper _ => 32
  | outOfBand => 0

/-- Whether a number is in the range. -/
def covers : Range → Int → Bool
  | values low bits, n => decide (low ≤ n) && decide (n < low + (1 <<< bits : Nat))
  | lower high, n => decide (n ≤ high)
  | upper low, n => decide (low ≤ n)
  | outOfBand, _ => false

/-- Whether the range has both a first and a last value. -/
def bounded : Range → Bool
  | values _ _ => true
  | _ => false

/-- The value at a place in the range; places in a lower range are counted downwards. -/
def valueAt : Range → Nat → Option Int
  | values low _, place | upper low, place => some (low + place)
  | lower high, place => some (high - place)
  | outOfBand, _ => none

/-- The place of a value in the range. -/
def placeOf : Range → Option Int → Nat
  | values low _, some n | upper low, some n => (n - low).toNat
  | lower high, some n => (high - n).toNat
  | _, _ => 0

/-- The range as text. -/
def render : Range → String
  | values low bits => s!"{low}..={low + (1 <<< bits : Nat) - 1}"
  | lower high => s!"..={high}"
  | upper low => s!"{low}.."
  | outOfBand => "OOB"

end Range

/-- A line of a table. A line whose code word has no bits isn't used. -/
structure Line where
  length : Nat
  range : Range
  deriving DecidableEq, Repr

def Line.used (line : Line) : Bool := decide (0 < line.length)

/-- The longest code word that a table may have. -/
def maxLength : Nat := 32

/-! ## Code words -/

/-- The number of used lines with code words of a given length. -/
def countLength (lines : List Line) (length : Nat) : Nat :=
  if length = 0 then 0 else lines.countP (·.length == length)

/-- The first code word of a given length, as a number: it follows those that start with a shorter
code word. -/
def firstCode (lines : List Line) : (length : Nat) → Nat
  | 0 => 0
  | length + 1 => 2 * (firstCode lines length + countLength lines length)

/-- Whether the code words of every length have room behind the shorter ones. -/
def hasRoom (lines : List Line) : Bool :=
  lines.all (·.length ≤ maxLength) &&
    (List.range maxLength).all fun k =>
      firstCode lines (k + 1) + countLength lines (k + 1) ≤ 1 <<< (k + 1)

/-- A line with its code word. -/
structure Entry where
  line : Line
  code : Nat
  deriving DecidableEq, Repr

/-- The bits of the code word. -/
def Entry.bits (entry : Entry) : List Bool := Bits.lowBits entry.line.length entry.code

/-- Number the lines of each length in their order, where `next` has the next code word of each
length. -/
def assignCodes (next : Array Nat) : List Line → List Entry
  | [] => []
  | line :: rest =>
    ⟨line, next.getD line.length 0⟩ :: assignCodes (next.modify line.length (· + 1)) rest

/-- The lines of a table with their canonical code words. -/
def canonicalCodes (lines : List Line) : List Entry :=
  assignCodes ((Array.range (maxLength + 1)).map (firstCode lines)) lines

/-! ## The tree of code words -/

/-- Code words, bit by bit. -/
inductive Tree where
  | empty
  | leaf (range : Range)
  | node (zero one : Tree)
  deriving DecidableEq, Repr

namespace Tree

/-- What follows a zero and a one, unless a code word ends here. -/
def children : Tree → Option (Tree × Tree)
  | empty => some (empty, empty)
  | leaf _ => none
  | node zero one => some (zero, one)

/-- Add a code word, if it doesn't collide with another. -/
def insert (range : Range) : List Bool → Tree → Option Tree
  | [], empty => some (leaf range)
  | [], _ => none
  | bit :: bits, tree => do
    let (zero, one) ← tree.children
    if bit then return node zero (← insert range bits one)
    else return node (← insert range bits zero) one

/-- Read a code word. -/
def read : Tree → Reading Range
  | empty => throw (.huffman .invalidCode)
  | leaf range => return range
  | node zero one => fun r =>
    match Reader.readBit r with
    | .ok (bit, r) => if bit then one.read r else zero.read r
    | .error _ => .error (.huffman .invalidCode)

/-- A line of text for every code word, in order, each behind the bits of `path`. -/
def render (path : String) : Tree → String
  | empty => ""
  | leaf range => path ++ ": " ++ range.render ++ "\n"
  | node zero one => zero.render (path.push '0') ++ one.render (path.push '1')

end Tree

/-! ## Tables -/

/-- The lines of a table with their code words, and the tree of those that are used. -/
structure Table where
  entries : List Entry
  tree : Tree
  deriving DecidableEq, Repr

namespace Table

/-- Add the code words of the used lines to a tree. -/
def insertAll (tree : Tree) : List Entry → Option Tree
  | [] => some tree
  | entry :: rest =>
    if entry.line.used then do
      insertAll (← tree.insert entry.line.range entry.bits) rest
    else insertAll tree rest

/-- The table with the given lines. Its code words exist if no length has too many of them. -/
def build (lines : List Line) : Except DecodeError Table :=
  if hasRoom lines then
    let entries := canonicalCodes lines
    match insertAll .empty entries with
    | some tree => .ok ⟨entries, tree⟩
    | none => .error (.huffman .invalidTable)
  else .error (.huffman .invalidTable)

/-- Decode one value, `none` being the out-of-band value. -/
def decode (table : Table) : Reading (Option Int) := do
  let range ← table.tree.read
  let place ← Reader.readBits range.bits
  match range.valueAt place with
  | none => return none
  | some n => return some (← checkSigned n)

/-- Decode a value that must not be out of band. -/
def decodeValue (table : Table) : Reading Int := do
  match ← table.decode with
  | some n => return n
  | none => throw (.huffman .unexpectedOob)

/-- The line with which a value is written: one with a bounded range, if there is any. -/
def entryFor (table : Table) : Option Int → Option Entry
  | none => table.entries.find? fun entry => entry.line.used && entry.line.range == .outOfBand
  | some n =>
    (table.entries.find? fun entry =>
      entry.line.used && entry.line.range.bounded && entry.line.range.covers n) <|>
    table.entries.find? fun entry => entry.line.used && entry.line.range.covers n

/-- Write the code of a value, `none` being the out-of-band value. -/
def encode (table : Table) (w : Writer) (value : Option Int) : Except EncodeError Writer :=
  match table.entryFor value with
  | none => .error .valueNotRepresentable
  | some entry =>
    let range := entry.line.range
    .ok ((w.writeBits entry.line.length entry.code).writeBits range.bits (range.placeOf value))

/-- Whether the table has a code word for the out-of-band value. -/
def hasOob (table : Table) : Bool :=
  table.entries.any fun entry => entry.line.used && entry.line.range == .outOfBand

/-- A line of text for every code word, in order. -/
def render (table : Table) : String := table.tree.render ""

/-- The size of the table as text. -/
def summary (table : Table) : String := s!"HuffmanTable({table.entries.length} lines)"

end Table
end Bilevel.Huffman

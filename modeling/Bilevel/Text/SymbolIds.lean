import Bilevel.Huffman.Table

/-!
# Huffman codes for symbol numbers

A text region that is Huffman coded starts with a table for the numbers of its symbols. Only the
lengths of its code words are stored, in runs: a length, a repetition of the last length, or some
zeros. The code for these runs is itself given by lengths of four bits.
-/

namespace Bilevel.Text.SymbolIds

/-- The number of codes for runs. -/
def runCodes : Nat := 35

/-- The lines of a table whose values are counted from `first` on and have code words of given
lengths. -/
def linesFrom (first : Nat) : List Nat → List Huffman.Line
  | [] => []
  | length :: rest => ⟨length, .values first 0⟩ :: linesFrom (first + 1) rest

/-- The table in which value `i` has a code word of the `i`-th length. -/
def tableOfLengths (lengths : List Nat) : Except DecodeError Huffman.Table :=
  Huffman.Table.build (linesFrom 0 lengths)

/-- Read the lengths of the code words for runs. -/
def readRunLengths : (count : Nat) → Reading (List Nat)
  | 0 => return []
  | count + 1 => do
    let length ← Reader.readBits 4
    return length :: (← readRunLengths count)

/-- Read a run behind code words of which the last has length `previous`: a length, and how often it
is repeated. -/
def readRun (runs : Huffman.Table) (previous : Option Nat) : Reading (Nat × Nat) := do
  let code ← runs.decodeValue
  if 0 ≤ code ∧ code < 32 then return (code.toNat, 0)
  else if code = 32 then
    match previous with
    | some length => return (length, 2 + (← Reader.readBits 2))
    | none => throw (.huffman .invalidCode)
  else if code = 33 then return (0, 2 + (← Reader.readBits 3))
  else if code = 34 then return (0, 10 + (← Reader.readBits 7))
  else throw (.huffman .invalidCode)

/-- Read `count` lengths in runs, behind the lengths `before`, of which the last is to be repeated
`repeats` times. The last run must not be longer than what is left. -/
def readLengths (runs : Huffman.Table) :
    (count : Nat) → (before : Array Nat) → (repeats : Nat) → Reading (Array Nat)
  | 0, before, 0 => return before
  | 0, _, _ + 1 => throw (.huffman .invalidCode)
  | count + 1, before, 0 => do
    let (length, repeats) ← readRun runs before.back?
    readLengths runs count (before.push length) repeats
  | count + 1, before, repeats + 1 =>
    readLengths runs count (before.push (before.back?.getD 0)) repeats

/-- Read the table for the numbers of `symbols` symbols. -/
def read (symbols : Nat) : Reading Huffman.Table := do
  let runs ← tableOfLengths (← readRunLengths runCodes)
  let lengths ← readLengths runs symbols #[] 0
  Reader.align
  tableOfLengths lengths.toList

end Bilevel.Text.SymbolIds

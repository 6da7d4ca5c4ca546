import Bilevel.Huffman.Table

/-!
# Huffman tables in a stream

A stream can define tables of its own. It gives the lengths of their code words and the sizes of
their ranges; the ranges follow one another from the lowest value on, and behind them come a lower
range, an upper range and perhaps the out-of-band value.
-/

namespace Bilevel.Huffman

/-- The code word length and the range size, in bits, of a line with a bounded range. -/
structure Step where
  length : Nat
  bits : Nat
  deriving DecidableEq, Repr

/-- A table as a stream defines it. -/
structure CodeTable where
  /-- The lowest value of the bounded ranges. -/
  low : Int
  steps : List Step
  /-- The length of the code word for the values below the bounded ranges. -/
  lowerLength : Nat
  /-- The length of the code word for the values above the bounded ranges. -/
  upperLength : Nat
  /-- The length of the out-of-band code word. -/
  oobLength : Option Nat
  deriving DecidableEq, Repr

namespace CodeTable

/-- The largest size, in bits, of a bounded range. -/
def maxBits : Nat := 32

/-- The number of bits, at least one, in which a number can be written. -/
def fieldWidth (n : Nat) : Nat := if n = 0 then 1 else n.log2 + 1

/-- The number of bits in which every one of some numbers can be written. -/
def commonWidth (ns : List Nat) : Nat := (ns.map fieldWidth).foldl max 1

/-- The lengths of all code words. -/
def lengths (t : CodeTable) : List Nat :=
  t.steps.map (·.length) ++ [t.lowerLength, t.upperLength] ++ t.oobLength.toList

/-- The end of ranges that follow one another from `low` on, if every end fits a signed number. -/
def endOf? (low : Int) : List Step → Option Int
  | [] => some low
  | step :: rest =>
    let next := low + (1 <<< step.bits : Nat)
    if next ≤ 0x7FFFFFFF then endOf? next rest else none

def writeSteps (lengthWidth bitsWidth : Nat) (w : Writer) (steps : List Step) : Writer :=
  steps.foldl (fun w step => (w.writeBits lengthWidth step.length).writeBits bitsWidth step.bits) w

/-- The data of a table in a stream. -/
def write (t : CodeTable) : Except EncodeError Bytes :=
  let lengthWidth := commonWidth t.lengths
  let bitsWidth := commonWidth (t.steps.map (·.bits))
  if 8 < lengthWidth ∨ 8 < bitsWidth ∨ t.steps.any (maxBits < ·.bits) then
    .error .valueNotRepresentable
  else match endOf? t.low t.steps with
    | none => .error .valueNotRepresentable
    | some high =>
      let flags := t.oobLength.isSome.toNat + 2 * (lengthWidth - 1) + 16 * (bitsWidth - 1)
      let w := Writer.empty.writeUnsigned 1 flags |>.writeSigned 4 t.low |>.writeSigned 4 high
      let w := writeSteps lengthWidth bitsWidth w t.steps
      let w := w.writeBits lengthWidth t.lowerLength |>.writeBits lengthWidth t.upperLength
      let w := match t.oobLength with
        | some length => w.writeBits lengthWidth length
        | none => w
      .ok w.align.data

/-- Read lines whose ranges follow one another from `low` on, until they reach `high`. Also gives
where they end. -/
def readLines (lengthWidth bitsWidth : Nat) (high low : Int) : Reading (List Line × Int) :=
  if low < high then do
    let length ← Reader.readBits lengthWidth
    let bits ← Reader.readBits bitsWidth
    if maxBits < bits then throw (.huffman .invalidTable)
    let (lines, last) ← readLines lengthWidth bitsWidth high (low + (1 <<< bits : Nat))
    return (⟨length, .values low bits⟩ :: lines, last)
  else return ([], low)
termination_by (high - low).toNat
decreasing_by
  have : 0 < 1 <<< bits := Nat.one_shiftLeft bits ▸ Nat.two_pow_pos bits
  omega

/-- Read the lines of a table. -/
def readAll : Reading (List Line) := do
  let flags ← Reader.readUnsigned 1
  if flags.testBit 7 then throw (.malformed .reservedBits)
  let lengthWidth := flags / 2 % 8 + 1
  let bitsWidth := flags / 16 % 8 + 1
  let low ← Reader.readSigned 4
  let high ← Reader.readSigned 4
  let (lines, last) ← readLines lengthWidth bitsWidth high low
  let last ← checkSigned last
  let below ← checkSigned (low - 1)
  let lower : Line := ⟨← Reader.readBits lengthWidth, .lower below⟩
  let upper : Line := ⟨← Reader.readBits lengthWidth, .upper last⟩
  if flags.testBit 0 then
    let oob : Line := ⟨← Reader.readBits lengthWidth, .outOfBand⟩
    return lines ++ [lower, upper, oob]
  else return lines ++ [lower, upper]

end CodeTable

/-- The table that a stream defines by the given data. -/
def Table.read (data : Bytes) : Except DecodeError Table := do
  let (lines, _) ← CodeTable.readAll.run (Reader.ofBytes data)
  build lines

end Bilevel.Huffman

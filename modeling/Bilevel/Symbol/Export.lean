import Bilevel.Symbol.Sink
import Bilevel.Symbol.Source

/-!
# Exported symbols

A symbol dictionary makes some of its symbols available, those that it defines as well as those
that it got from others. Which ones is written as runs: of symbols that aren't exported, then of
ones that are, and so on in turn.
-/

namespace Bilevel.Symbol

/-- The runs of a list of flags, of which the first `run` belong together and are `current`. The
first run is one of flags that aren't set. -/
def runsOf (current : Bool) (run : Nat) : List Bool → List Nat
  | [] => if run = 0 then [] else [run]
  | flag :: rest =>
    if flag = current then runsOf current (run + 1) rest else run :: runsOf flag 1 rest

/-- The runs of flags that say which symbols are exported. -/
def exportRuns (flags : List Bool) : List Nat := runsOf false 0 flags

/-- Take up one run: the symbols from `index` on, of which `exported` were taken before. -/
def takeRun (symbols : Array Bitmap) (exporting : Bool) (index : Nat) (exported : Array Bitmap)
    (run : Int) : Except DecodeError (Nat × Array Bitmap) :=
  if run < 0 ∨ symbols.size < index + run.toNat then .error (.malformed .exportCountMismatch)
  else
    let last := index + run.toNat
    .ok (last, if exporting then exported ++ symbols.extract index last else exported)

/-- Read runs, at most `limit` of them, until all symbols are dealt with. -/
def readExported (symbols : Array Bitmap) : (limit : Nat) → (exporting : Bool) → (index : Nat) →
    (exported : Array Bitmap) → Decoding (Array Bitmap)
  | 0, _, _, _ => throw .unexpectedEnd
  | limit + 1, exporting, index, exported => do
    if symbols.size ≤ index then return exported
    else
      let run ← Source.readNumber .exportRun
      let (index, exported) ← takeRun symbols exporting index exported run
      readExported symbols limit (!exporting) index exported

/-- Write the runs of flags that say which symbols are exported. -/
def writeExported (flags : List Bool) (sink : Sink) : Except EncodeError Sink :=
  (exportRuns flags).foldlM (fun sink (run : Nat) => sink.writeValue .exportRun (some run)) sink

end Bilevel.Symbol

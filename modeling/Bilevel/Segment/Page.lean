import Bilevel.Bitmap.Combine
import Bilevel.Bits.Reader
import Bilevel.Bits.Writer

/-!
# Page information

A page is announced with its size, its resolution and its colour before anything is drawn. The
height may be left open if the page comes in stripes.
-/

namespace Bilevel

structure PageInfo where
  width : Nat
  /-- The height, unless it is only known once the page has ended. -/
  height : Option Nat
  /-- Pixels per metre, 0 if unknown. -/
  xResolution : Nat := 0
  yResolution : Nat := 0
  lossless : Bool := true
  mightRefine : Bool := false
  /-- Whether the page is black before anything is drawn. -/
  startsBlack : Bool := false
  operator : CombinationOperator := .or
  /-- Whether regions may use other operators than the one of the page. -/
  overridesOperator : Bool := false
  /-- The largest number of rows in a stripe, if the page comes in stripes. -/
  maxStripe : Option Nat := none
  deriving DecidableEq, Repr

namespace PageInfo

/-- The field that stands for an open height. -/
def unknownHeight : Nat := 0xFFFFFFFF

def read : Reading PageInfo := do
  let width ← Reader.readUnsigned 4
  let height ← Reader.readUnsigned 4
  let xResolution ← Reader.readUnsigned 4
  let yResolution ← Reader.readUnsigned 4
  let flags ← Reader.readUnsigned 1
  let some operator := CombinationOperator.ofCode? (flags / 8 % 4)
    | throw (.malformed .invalidCombinationOperator)
  let striping ← Reader.readUnsigned 2
  if height = unknownHeight ∧ striping.testBit 15 = false then
    throw (.malformed .invalidDimension)
  return {
    width, xResolution, yResolution, operator
    height := if height = unknownHeight then none else some height
    lossless := flags.testBit 0
    mightRefine := flags.testBit 1
    startsBlack := flags.testBit 2
    overridesOperator := flags.testBit 6
    maxStripe := if striping.testBit 15 then some (striping % 0x8000) else none }

def write (info : PageInfo) (w : Writer) : Writer :=
  let flags := info.lossless.toNat + 2 * info.mightRefine.toNat + 4 * info.startsBlack.toNat +
    8 * info.operator.code + 64 * info.overridesOperator.toNat
  let striping := match info.maxStripe with
    | some rows => 0x8000 + rows % 0x8000
    | none => 0
  w.writeUnsigned 4 info.width
    |>.writeUnsigned 4 (info.height.getD unknownHeight)
    |>.writeUnsigned 4 info.xResolution
    |>.writeUnsigned 4 info.yResolution
    |>.writeUnsigned 1 flags
    |>.writeUnsigned 2 striping

end PageInfo
end Bilevel

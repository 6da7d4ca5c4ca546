import Bilevel.Bitmap.Combine
import Bilevel.Bits.Reader
import Bilevel.Bits.Writer
import Bilevel.Settings

/-!
# Region information

Every region starts with its size, its place on the page, and how it is combined with the page.
-/

namespace Bilevel

structure RegionInfo where
  width : Nat
  height : Nat
  x : Nat
  y : Nat
  operator : CombinationOperator := .or
  deriving DecidableEq, Repr

namespace RegionInfo

/-- The number of bytes of the region information. -/
def byteCount : Nat := 17

def read (settings : DecodeSettings) : Reading RegionInfo := do
  let width ← Reader.readUnsigned 4
  let height ← Reader.readUnsigned 4
  let x ← Reader.readUnsigned 4
  let y ← Reader.readUnsigned 4
  let flags ← Reader.readUnsigned 1
  let some operator := CombinationOperator.ofCode? (flags % 8)
    | throw (.malformed .invalidCombinationOperator)
  if flags.testBit 3 then throw (.unsupported .colourExtension)
  settings.checkReserved (flags / 16)
  return { width, height, x, y, operator }

def write (info : RegionInfo) (w : Writer) : Writer :=
  w.writeUnsigned 4 info.width
    |>.writeUnsigned 4 info.height
    |>.writeUnsigned 4 info.x
    |>.writeUnsigned 4 info.y
    |>.writeUnsigned 1 info.operator.code

end RegionInfo

/-- A decoded region, and where it goes. -/
structure Region where
  info : RegionInfo
  bitmap : Bitmap
  deriving DecidableEq

end Bilevel

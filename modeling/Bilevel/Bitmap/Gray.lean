import Bilevel.Bitmap.Basic

/-!
# Other forms of a bitmap

A bitmap as text, one line per row, and as an image of gray levels, one byte per pixel.
-/

namespace Bilevel

/-- An image with a gray level for every pixel, row by row; 0 is black and 255 is white. -/
structure GrayImage where
  width : Nat
  height : Nat
  levels : Bytes
  deriving DecidableEq, Repr

namespace Bitmap

/-- The size of a bitmap, and a line for every row in which `#` is a black pixel. -/
def render (b : Bitmap) : String :=
  b.height.fold (fun y _ text =>
    (b.width.fold (fun x _ text => text.push (if b.get x y then '#' else '.')) text).push '\n')
    s!"Bitmap {b.width}x{b.height}\n"

/-- Black and white as gray levels. -/
def toGray (b : Bitmap) : GrayImage where
  width := b.width
  height := b.height
  levels := b.height.fold (fun y _ levels =>
    b.width.fold (fun x _ levels => levels.push (if b.get x y then 0 else 255)) levels) #[]

/-- The pixels of a gray image that are darker than `threshold`, in black. -/
def ofGray (image : GrayImage) (threshold : Nat) : Bitmap :=
  image.height.fold (fun y _ b =>
    image.width.fold (fun x _ b =>
      if (image.levels.getD (image.width * y + x) 255).toNat < threshold then b.set x y true else b)
      b)
    (blank image.width image.height)

end Bitmap
end Bilevel

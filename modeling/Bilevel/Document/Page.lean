import Bilevel.Segment.Page
import Bilevel.Text.Region

/-!
# Pages

A page is open from its page information to its end. Regions are drawn onto it meanwhile; if its
height wasn't given, it grows with them and with its stripes.
-/

namespace Bilevel

/-- Where the symbols of a text region are. -/
structure TextLayout where
  /-- The number of the segment of the region. -/
  segment : Nat
  /-- The place of the region on the page. -/
  x : Nat
  y : Nat
  /-- The places of its instances in the region. -/
  placements : Array Text.Placement
  deriving DecidableEq, Repr

/-- A finished page. -/
structure Page where
  number : Nat
  bitmap : Bitmap
  xResolution : Nat
  yResolution : Nat
  textRegions : Array TextLayout
  deriving DecidableEq

/-- A page on which regions are being drawn. -/
structure OpenPage where
  info : PageInfo
  bitmap : Bitmap
  textRegions : Array TextLayout := #[]
  deriving DecidableEq

namespace OpenPage

/-- A page on which nothing is drawn yet. -/
def start (settings : DecodeSettings) (info : PageInfo) : Except DecodeError OpenPage := do
  if info.width = 0 then throw (.malformed .invalidDimension)
  let blank ← Bitmap.create settings.maxPixelCount info.width (info.height.getD 0)
  return { info, bitmap := if info.startsBlack then blank.fill true else blank }

/-- Make the page at least `height` rows tall, if its height wasn't given. -/
def grow (settings : DecodeSettings) (page : OpenPage) (height : Nat) :
    Except DecodeError OpenPage :=
  if page.info.height.isSome ∨ height ≤ page.bitmap.height then .ok page
  else if page.info.width * height > settings.maxPixelCount then
    .error (.unsupported .imageTooLarge)
  else .ok { page with bitmap := page.bitmap.extendHeight height page.info.startsBlack }

/-- Check that a region ends in the range of coordinates, and make the page tall enough for it. -/
def makeRoom (settings : DecodeSettings) (page : OpenPage) (info : RegionInfo) :
    Except DecodeError OpenPage := do
  let _ ← checkWord (info.x + info.width)
  let bottom ← checkWord (info.y + info.height)
  page.grow settings bottom

/-- Draw a region. Parts that fall outside the page are clipped. -/
def draw (settings : DecodeSettings) (page : OpenPage) (region : Region) :
    Except DecodeError OpenPage := do
  let info := region.info
  let page ← page.makeRoom settings info
  return { page with bitmap := page.bitmap.combine region.bitmap info.x info.y info.operator }

def addLayout (page : OpenPage) (layout : TextLayout) : OpenPage :=
  { page with textRegions := page.textRegions.push layout }

def finish (page : OpenPage) (number : Nat) : Page where
  number := number
  bitmap := page.bitmap
  xResolution := page.info.xResolution
  yResolution := page.info.yResolution
  textRegions := page.textRegions

end OpenPage
end Bilevel

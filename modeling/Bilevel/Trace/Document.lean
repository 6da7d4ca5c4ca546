import Bilevel.Document.Decode
import Bilevel.Trace.Symbol

/-!
# Traces of documents

A stream is decoded here segment by segment with a trace of the bitmaps that are made, pages among
them, and of the refinements. Arithmetic that traps gives no document at all if a coordinate of a
refinement doesn't fit a signed number of 32 bits; otherwise it gives what arithmetic that wraps
around gives.
-/

namespace Bilevel

open Tracing

/-! ## Pages -/

namespace OpenPage

/-- A page on which nothing is drawn yet. -/
def startTraced (settings : DecodeSettings) (info : PageInfo) : Tracing OpenPage := do
  if info.width = 0 then throw (.malformed .invalidDimension)
  let blank ← Bitmap.createTraced settings.maxPixelCount info.width (info.height.getD 0)
  return { info, bitmap := if info.startsBlack then blank.fill true else blank }

/-- Make the page at least `height` rows tall, if its height wasn't given. -/
def growTraced (settings : DecodeSettings) (page : OpenPage) (height : Nat) : Tracing OpenPage :=
  if page.info.height.isSome ∨ height ≤ page.bitmap.height then return page
  else if page.info.width * height > settings.maxPixelCount then
    throw (.unsupported .imageTooLarge)
  else do
    let bitmap ← make (page.bitmap.extendHeight height page.info.startsBlack)
    return { page with bitmap }

/-- Check that a region ends in the range of coordinates, and make the page tall enough for it. -/
def makeRoomTraced (settings : DecodeSettings) (page : OpenPage) (info : RegionInfo) :
    Tracing OpenPage := do
  let _ ← checkWord (info.x + info.width)
  let bottom ← checkWord (info.y + info.height)
  page.growTraced settings bottom

/-- Draw a region. Parts that fall outside the page are clipped. -/
def drawTraced (settings : DecodeSettings) (page : OpenPage) (region : Region) :
    Tracing OpenPage := do
  let info := region.info
  let page ← page.makeRoomTraced settings info
  return { page with bitmap := page.bitmap.combine region.bitmap info.x info.y info.operator }

end OpenPage

/-! ## Segments -/

namespace Assembly

/-- Draw a region onto its page, or keep it for later segments. -/
def placeTraced (settings : DecodeSettings) (a : Assembly) (header : SegmentHeader)
    (use : RegionUse) (region : Region) : Tracing Assembly := do
  if use = .intermediate then
    return { a with
      store := { a.store with regions := a.store.regions.insert header.number region } }
  else
    let page ← a.page header.page
    return a.setPage header.page (← page.drawTraced settings region)

def decodeTextTraced (settings : DecodeSettings) (shared : Option Store) (a : Assembly)
    (segment : Segment) (use : RegionUse) : Tracing Assembly := do
  let inputs ← SymbolInputs.gather (a.stores shared) segment.header.referred
  let decoded ← Text.decodeRegionTraced settings segment.data inputs.symbols inputs.tables
  let a ← a.addLayout segment.header use decoded
  a.placeTraced settings segment.header use decoded.region

/-- The bitmap that a refinement region refines: another region, or what is on the page. The page
may have to grow for it. -/
def referenceTraced (settings : DecodeSettings) (shared : Option Store) (a : Assembly)
    (segment : Segment) : Tracing (Bitmap × Assembly) := do
  let (info, _) ← (RegionInfo.read settings).run (Reader.ofBytes segment.data)
  match segment.header.referred with
  | number :: _ =>
    match ← Store.lookup number (a.stores shared) with
    | .region region => return (region.bitmap, a)
    | _ => throw (.reference (.wrongType number))
  | [] =>
    let page ← a.page segment.header.page
    let page ← page.makeRoomTraced settings info
    let bitmap ←
      page.bitmap.cropTraced settings.maxPixelCount info.x info.y info.width info.height
    return (bitmap, a.setPage segment.header.page page)

def decodeRefinementTraced (settings : DecodeSettings) (shared : Option Store) (a : Assembly)
    (segment : Segment) (use : RegionUse) : Tracing Assembly := do
  let (reference, a) ← a.referenceTraced settings shared segment
  let region ← Refinement.decodeRegionTraced settings segment.data reference
  a.placeTraced settings segment.header use region

/-- Decode a region of a page. -/
def decodeRegionTraced (settings : DecodeSettings) (shared : Option Store) (a : Assembly)
    (segment : Segment) (use : RegionUse) : RegionCoding → Tracing Assembly
  | .halftone => throw (.unsupported .halftone)
  | .generic => do
    let _ ← a.page segment.header.page
    let region ←
      Generic.decodeRegionTraced settings segment.data segment.header.dataLength.isNone
    a.placeTraced settings segment.header use region
  | .text => do
    let _ ← a.page segment.header.page
    a.decodeTextTraced settings shared segment use
  | .refinement => do
    let _ ← a.page segment.header.page
    a.decodeRefinementTraced settings shared segment use

def startPageTraced (settings : DecodeSettings) (a : Assembly) (segment : Segment) :
    Tracing Assembly := do
  let number := segment.header.page
  if a.openPages.contains number then throw (.malformed .duplicatePageInformation)
  let (info, _) ← PageInfo.read.run (Reader.ofBytes segment.data)
  return a.setPage number (← OpenPage.startTraced settings info)

/-- End a stripe, whose last row the segment gives. -/
def endStripeTraced (settings : DecodeSettings) (a : Assembly) (segment : Segment) :
    Tracing Assembly := do
  let number := segment.header.page
  let (row, _) ← (Reader.readUnsigned 4).run (Reader.ofBytes segment.data)
  let page ← a.page number
  let height ← checkWord (row + 1)
  return a.setPage number (← page.growTraced settings height)

def addDictionaryTraced (settings : DecodeSettings) (shared : Option Store) (a : Assembly)
    (segment : Segment) : Tracing Assembly := do
  let inputs ← SymbolInputs.gather (a.stores shared) segment.header.referred
  let dictionary ←
    Symbol.decodeTraced settings segment.data inputs.symbols inputs.tables inputs.last
  return { a with
    store := { a.store with
      dictionaries := a.store.dictionaries.insert segment.header.number dictionary } }

/-- Decode a segment. No bitmaps are made for the other kinds. -/
def decodeTraced (settings : DecodeSettings) (shared : Option Store) (a : Assembly)
    (segment : Segment) : Tracing Assembly :=
  match segment.header.kind with
  | .pageInformation => a.startPageTraced settings segment
  | .endOfStripe => a.endStripeTraced settings segment
  | .symbolDictionary => a.addDictionaryTraced settings shared segment
  | .region coding use => a.decodeRegionTraced settings shared segment use coding
  | _ => a.decode settings shared segment

/-- Deal with a segment: pass over it, decode it, or record that it can't be decoded. -/
def processTraced (settings : DecodeSettings) (shared : Option Store) (a : Assembly)
    (segment : Segment) : StateM (Array Event) Assembly := fun trace =>
  let header := segment.header
  if a.passesOver header.page then (a, trace)
  else match a.decodeTraced settings shared segment trace with
    | .ok a trace => (a.noteDecoded header.number, trace)
    | .error e trace => (a.fail header.page (some header.number) e, trace)

/-- Deal with the items of a stream. Its end is the end of every open page, unless it is broken. -/
def runTraced (settings : DecodeSettings) (shared : Option Store) :
    Assembly → List StreamItem → StateM (Array Event) Assembly
  | a, [] => return a.endAll
  | a, .segment segment :: rest => do
    let next ← a.processTraced settings shared segment
    if a.ends segment then return next.endAll else runTraced settings shared next rest
  | a, .invalid header error :: rest =>
    runTraced settings shared (a.fail header.page (some header.number) error) rest
  | a, .broken header error :: _ =>
    return a.failAll ((header.map (·.page)).getD 0) (header.map (·.number)) error

end Assembly

/-! ## Arithmetic that traps -/

namespace Trapping

/-- What comes of the items of a stream, unless a coordinate doesn't fit. -/
def run (settings : DecodeSettings) (shared : Option Store) (items : List StreamItem) :
    Option Assembly :=
  let (a, trace) := Assembly.runTraced settings shared {} items #[]
  if trace.any Event.overflows then none else some a

/-- Decode shared segments. -/
def globals (settings : DecodeSettings) (data : Bytes) : Option Globals :=
  (run settings none (Stream.embedded data)).map fun a => ⟨a.store, a.failures⟩

/-- What comes of the items of a stream as a document. -/
def document (settings : DecodeSettings) (globals : Option Globals) (items : List StreamItem) :
    Option Document :=
  (run settings (globals.map (·.store)) items).map fun a =>
    ⟨a.pages, a.failures, a.store.dictionaries⟩

/-- Decode a stream, which can refer to segments that were shared beforehand. -/
def decode (settings : DecodeSettings) (globals : Option Globals) (data : Bytes) :
    Option (Except DecodeError Document) :=
  (document settings globals (Stream.embedded data)).map Document.check

/-- Decode a file. -/
def decodeFile (settings : DecodeSettings) (data : Bytes) : Option (Except DecodeError Document) :=
  match Stream.file data with
  | .ok items => (document settings none items).map Document.check
  | .error e => some (.error e)

end Trapping
end Bilevel

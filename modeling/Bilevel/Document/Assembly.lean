import Bilevel.Document.Page
import Bilevel.Document.Store
import Bilevel.Segment.Stream

/-!
# Assembling pages

The segments of a stream are decoded one after another. A segment that can't be decoded makes its
page fail, and the other segments of that page are then passed over; other pages aren't affected.
-/

namespace Bilevel

/-- A page, or a segment of no page, that couldn't be decoded. -/
structure PageFailure where
  /-- The number of the page, 0 for a segment of no page. -/
  page : Nat
  /-- The number of the segment, if its header could be read. -/
  segment : Option Nat
  error : DecodeError
  deriving DecidableEq, Repr

/-- What came of the segments so far. -/
structure Assembly where
  store : Store := {}
  /-- The pages that have begun and not ended. -/
  openPages : Numbered OpenPage := ∅
  failedPages : Std.ExtTreeSet Nat := ∅
  /-- The pages that have ended, in this order. -/
  pages : Array Page := #[]
  failures : Array PageFailure := #[]

namespace Assembly

/-! ## Single segments -/

/-- The open page with a given number. -/
def page (a : Assembly) (number : Nat) : Except DecodeError OpenPage :=
  match a.openPages[number]? with
  | some page => .ok page
  | none => .error (.malformed .missingPageInformation)

def setPage (a : Assembly) (number : Nat) (page : OpenPage) : Assembly :=
  { a with openPages := a.openPages.insert number page }

/-- End a page, if it is open. -/
def endPage (a : Assembly) (number : Nat) : Assembly :=
  match a.openPages[number]? with
  | some page =>
    { a with
      openPages := a.openPages.erase number
      pages := a.pages.push (page.finish number) }
  | none => a

/-- Record a failure. A page that fails is closed and not opened again. -/
def fail (a : Assembly) (page : Nat) (segment : Option Nat) (error : DecodeError) : Assembly :=
  let a := { a with failures := a.failures.push ⟨page, segment, error⟩ }
  if page = 0 then a
  else { a with openPages := a.openPages.erase page, failedPages := a.failedPages.insert page }

/-- Draw a region onto its page, or keep it for later segments. -/
def place (settings : DecodeSettings) (a : Assembly) (header : SegmentHeader) (use : RegionUse)
    (region : Region) : Except DecodeError Assembly := do
  if use = .intermediate then
    return { a with
      store := { a.store with regions := a.store.regions.insert header.number region } }
  else
    let page ← a.page header.page
    return a.setPage header.page (← page.draw settings region)

/-- The stores in which a segment looks for what it refers to. -/
def stores (a : Assembly) (shared : Option Store) : List Store := a.store :: shared.toList

/-- Note where the symbols of a text region are, if the region is drawn onto its page. -/
def addLayout (a : Assembly) (header : SegmentHeader) (use : RegionUse) (decoded : TextRegion) :
    Except DecodeError Assembly := do
  if use = .intermediate then return a
  else
    let page ← a.page header.page
    let info := decoded.region.info
    return a.setPage header.page
      (page.addLayout ⟨header.number, info.x, info.y, decoded.placements⟩)

def decodeText (settings : DecodeSettings) (shared : Option Store) (a : Assembly)
    (segment : Segment) (use : RegionUse) : Except DecodeError Assembly := do
  let inputs ← SymbolInputs.gather (a.stores shared) segment.header.referred
  let decoded ← Text.decodeRegion settings segment.data inputs.symbols inputs.tables
  let a ← a.addLayout segment.header use decoded
  a.place settings segment.header use decoded.region

/-- The bitmap that a refinement region refines: another region, or what is on the page. The page
may have to grow for it. -/
def reference (settings : DecodeSettings) (shared : Option Store) (a : Assembly)
    (segment : Segment) : Except DecodeError (Bitmap × Assembly) := do
  let (info, _) ← (RegionInfo.read settings).run (Reader.ofBytes segment.data)
  match segment.header.referred with
  | number :: _ =>
    match ← Store.lookup number (a.stores shared) with
    | .region region => return (region.bitmap, a)
    | _ => throw (.reference (.wrongType number))
  | [] =>
    let page ← a.page segment.header.page
    let page ← page.makeRoom settings info
    let bitmap ← page.bitmap.crop settings.maxPixelCount info.x info.y info.width info.height
    return (bitmap, a.setPage segment.header.page page)

def decodeRefinement (settings : DecodeSettings) (shared : Option Store) (a : Assembly)
    (segment : Segment) (use : RegionUse) : Except DecodeError Assembly := do
  let (reference, a) ← a.reference settings shared segment
  let region ← Refinement.decodeRegion settings segment.data reference
  a.place settings segment.header use region

/-- Decode a region of a page. -/
def decodeRegion (settings : DecodeSettings) (shared : Option Store) (a : Assembly)
    (segment : Segment) (use : RegionUse) : RegionCoding → Except DecodeError Assembly
  | .halftone => .error (.unsupported .halftone)
  | .generic => do
    let _ ← a.page segment.header.page
    let region ←
      Generic.decodeRegion settings segment.data segment.header.dataLength.isNone
    a.place settings segment.header use region
  | .text => do
    let _ ← a.page segment.header.page
    a.decodeText settings shared segment use
  | .refinement => do
    let _ ← a.page segment.header.page
    a.decodeRefinement settings shared segment use

def startPage (settings : DecodeSettings) (a : Assembly) (segment : Segment) :
    Except DecodeError Assembly := do
  let number := segment.header.page
  if a.openPages.contains number then throw (.malformed .duplicatePageInformation)
  let (info, _) ← PageInfo.read.run (Reader.ofBytes segment.data)
  return a.setPage number (← OpenPage.start settings info)

/-- End a stripe, whose last row the segment gives. -/
def endStripe (settings : DecodeSettings) (a : Assembly) (segment : Segment) :
    Except DecodeError Assembly := do
  let number := segment.header.page
  let (row, _) ← (Reader.readUnsigned 4).run (Reader.ofBytes segment.data)
  let page ← a.page number
  let height ← checkWord (row + 1)
  return a.setPage number (← page.grow settings height)

def addTable (a : Assembly) (segment : Segment) : Except DecodeError Assembly := do
  let table ← Huffman.Table.read segment.data
  return { a with
    store := { a.store with tables := a.store.tables.insert segment.header.number table } }

def addDictionary (settings : DecodeSettings) (shared : Option Store) (a : Assembly)
    (segment : Segment) : Except DecodeError Assembly := do
  let inputs ← SymbolInputs.gather (a.stores shared) segment.header.referred
  let dictionary ←
    Symbol.decode settings segment.data inputs.symbols inputs.tables inputs.last
  return { a with
    store := { a.store with
      dictionaries := a.store.dictionaries.insert segment.header.number dictionary } }

/-- Decode a segment. -/
def decode (settings : DecodeSettings) (shared : Option Store) (a : Assembly) (segment : Segment) :
    Except DecodeError Assembly :=
  match segment.header.kind with
  | .pageInformation => a.startPage settings segment
  | .endOfPage => do
    let _ ← a.page segment.header.page
    return a.endPage segment.header.page
  | .endOfStripe => a.endStripe settings segment
  | .endOfFile | .profiles | .colourPalette | .extension => .ok a
  | .tables => a.addTable segment
  | .symbolDictionary => a.addDictionary settings shared segment
  | .patternDictionary => .error (.unsupported .patternDictionary)
  | .region coding use => a.decodeRegion settings shared segment use coding

/-- Note that a segment was decoded. -/
def noteDecoded (a : Assembly) (number : Nat) : Assembly :=
  { a with store := { a.store with decoded := a.store.decoded.insert number } }

/-- Whether the segments of a page are passed over. -/
def passesOver (a : Assembly) (page : Nat) : Bool := page != 0 && a.failedPages.contains page

/-- Deal with a segment: pass over it, decode it, or record that it can't be decoded. -/
def process (settings : DecodeSettings) (shared : Option Store) (a : Assembly) (segment : Segment) :
    Assembly :=
  let header := segment.header
  if a.passesOver header.page then a
  else match a.decode settings shared segment with
    | .ok a => a.noteDecoded header.number
    | .error e => a.fail header.page (some header.number) e

/-! ## Streams -/

/-- The numbers of the open pages, in ascending order. -/
def openNumbers (a : Assembly) : List Nat := a.openPages.keys

/-- End all open pages. -/
def endAll (a : Assembly) : Assembly := a.openNumbers.foldl endPage a

/-- Let all open pages fail. If none is open, the failure is that of the given page. -/
def failAll (a : Assembly) (page : Nat) (segment : Option Nat) (error : DecodeError) : Assembly :=
  let numbers := if a.openNumbers.isEmpty then [page] else a.openNumbers
  numbers.foldl (fun a number => a.fail number segment error) a

/-- Whether a segment ends the stream. -/
def ends (a : Assembly) (segment : Segment) : Bool :=
  segment.header.kind = .endOfFile && !a.passesOver segment.header.page

/-- Deal with the items of a stream. Its end is the end of every open page, unless it is broken. -/
def run (settings : DecodeSettings) (shared : Option Store) : Assembly → List StreamItem → Assembly
  | a, [] => a.endAll
  | a, .segment segment :: rest =>
    let next := a.process settings shared segment
    if a.ends segment then next.endAll else run settings shared next rest
  | a, .invalid header error :: rest =>
    run settings shared (a.fail header.page (some header.number) error) rest
  | a, .broken header error :: _ =>
    a.failAll ((header.map (·.page)).getD 0) (header.map (·.number)) error

end Assembly
end Bilevel

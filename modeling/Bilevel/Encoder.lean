import Bilevel.Huffman.Custom
import Bilevel.Segment.Page
import Bilevel.Segment.Stream
import Bilevel.Symbol.Encode
import Bilevel.Text.Region

/-!
# Encoding pages

An encoder writes segments one after another and keeps a copy of the page on which they draw, so
that a refinement is coded with the help of what is on the page already. A call that is refused
says why; a page that it has ended stays ended.
-/

namespace Bilevel

/-- The page on which an encoder draws. -/
structure Canvas where
  number : Nat
  bitmap : Bitmap
  deriving DecidableEq

/-- Segments written so far, and the page on which the next ones draw. -/
structure Encoder where
  written : Bytes := #[]
  /-- The number of the next segment. -/
  nextSegment : Nat := 0
  /-- The number of pages begun so far. -/
  pageCount : Nat := 0
  page : Option Canvas := none
  deriving DecidableEq

/-- A call to an encoder, which changes it and may be refused. -/
abbrev Encoding := ExceptT EncodeError (StateM Encoder)

/-- A symbol dictionary that was written. -/
structure WrittenDictionary where
  /-- The number of its segment. -/
  segment : Nat
  /-- The exported symbols, in the order in which they are decoded. -/
  symbols : Array Bitmap
  /-- The places of the exported symbols in the list that was given. -/
  exported : List Nat
  /-- The places of all symbols in the list that was given, in the order in which they are
  written. -/
  order : List Nat
  deriving DecidableEq

/-- The number by which text regions refer to a symbol of the list that was given, if it is
exported. -/
def WrittenDictionary.exportIndex? (dictionary : WrittenDictionary) (i : Nat) : Option Nat :=
  dictionary.exported.idxOf? i

/-- How a generic region is written. -/
structure GenericOptions where
  template : Template := .template0
  /-- Whether rows that are the same as the one above can be left out. -/
  skipsRows : Bool := true
  /-- The places of the adaptive pixels, if they are to be moved. -/
  atPixels : Option (List AtPixel) := none
  operator : CombinationOperator := .or
  deriving DecidableEq, Repr

/-- How a refinement region is written. -/
structure RefinementOptions where
  template : RefinementTemplate := .template0
  /-- Whether pixels can be left out where the page has one colour. -/
  skipsPixels : Bool := true
  operator : CombinationOperator := .replace
  deriving DecidableEq, Repr

namespace Encoder

/-- The largest segment number. -/
def maxNumber : Nat := 0xFFFFFFFF

/-- An encoder whose first segment has a given number. -/
def startingAt (number : Nat) : Encoder := { nextSegment := number }

/-- The bitmap of the open page. -/
def pageBitmap? (e : Encoder) : Option Bitmap := e.page.map (·.bitmap)

/-! ## Segments -/

/-- How many numbers have to be left for a segment: while a page is open, one is kept for its
end. -/
def numbersNeeded (e : Encoder) : SegmentKind → Nat
  | .endOfPage => 1
  | .pageInformation => 2
  | _ => if e.page.isSome then 2 else 1

/-- Whether a segment is kept for later ones. -/
def isKept : SegmentKind → Bool
  | .symbolDictionary | .tables => true
  | _ => false

/-- Write a segment. Also gives its number. -/
def writeSegment (kind : SegmentKind) (page : Nat) (referred : List Nat) (data : Bytes) :
    Encoding Nat := do
  let e ← get
  let number := e.nextSegment
  if maxNumber < number + e.numbersNeeded kind ∨ referred.any (number ≤ ·) ∨
      0xFFFFFFFF < data.size then
    throw .valueNotRepresentable
  let header : SegmentHeader := {
    number, kind, page, referred
    deferredNonRetain := false
    retention := isKept kind :: referred.map fun _ => true
    dataLength := some data.size }
  let w := header.write ⟨e.written, 0⟩
  set { e with written := w.data ++ data, nextSegment := number + 1 }
  return number

/-- Combine a bitmap with the open page. -/
def drawOnPage (bitmap : Bitmap) (x y : Nat) (operator : CombinationOperator) : Encoding Unit :=
  modify fun e =>
    match e.page with
    | some canvas =>
      { e with page := some { canvas with bitmap := canvas.bitmap.combine bitmap x y operator } }
    | none => e

/-- The open page. -/
def openPage : Encoding Canvas := do
  match (← get).page with
  | some canvas => return canvas
  | none => throw .noPage

/-! ## Pages -/

/-- End the open page, if there is one. Also gives its bitmap. -/
def endPage : Encoding (Option Bitmap) := do
  match (← get).page with
  | none => return none
  | some canvas =>
    modify fun e => { e with page := none }
    tryCatch (do let _ ← writeSegment .endOfPage canvas.number [] #[]) fun _ => return ()
    return some canvas.bitmap

/-- What is said of a new page: it may be refined, and its regions have operators of their own. -/
def newPage (width height : Nat) : PageInfo where
  width := width
  height := some height
  mightRefine := true
  overridesOperator := true

/-- Start a white page, after the end of the one that is open. Also gives its number. -/
def startPage (width height : Nat) : Encoding Nat := do
  if width = 0 ∨ height = 0 then throw .emptyBitmap
  let _ ← endPage
  let number := (← get).pageCount + 1
  if maxNumber < number then throw .valueNotRepresentable
  let data := ((newPage width height).write .empty).data
  let _ ← writeSegment .pageInformation number [] data
  modify fun e => { e with pageCount := number, page := some ⟨number, .blank width height⟩ }
  return number

/-! ## Regions -/

/-- Check that a bitmap has pixels. -/
def checkSize (bitmap : Bitmap) : Encoding Unit :=
  if bitmap.width = 0 ∨ bitmap.height = 0 then throw .emptyBitmap else return ()

/-- The coding of a generic region, if the adaptive pixels are as many as needed and causal. -/
def genericParams (options : GenericOptions) : Encoding GenericParams := do
  let template := options.template
  match options.atPixels with
  | none => return { template, skipsRows := options.skipsRows }
  | some atPixels =>
    if atPixels.length ≠ template.atCount ∨ !atPixels.all AtPixel.causal then
      throw .valueNotRepresentable
    return { template, atPixels, skipsRows := options.skipsRows }

/-- Write a generic region and draw it onto the page. Also gives the number of its segment. -/
def addGeneric (bitmap : Bitmap) (x y : Nat) (options : GenericOptions) : Encoding Nat := do
  let canvas ← openPage
  checkSize bitmap
  let params ← genericParams options
  let info : RegionInfo := ⟨bitmap.width, bitmap.height, x, y, options.operator⟩
  let data := Generic.encodeRegion info params bitmap
  let number ← writeSegment (.region .generic .immediateLossless) canvas.number [] data
  drawOnPage bitmap x y options.operator
  return number

/-- Write a refinement of what is on the page and draw it. Also gives the number of its segment. -/
def addRefinement (bitmap : Bitmap) (x y : Nat) (options : RefinementOptions) : Encoding Nat := do
  let canvas ← openPage
  checkSize bitmap
  let reference := canvas.bitmap.window x y bitmap.width bitmap.height
  let params : RefinementParams :=
    { template := options.template, skipsPixels := options.skipsPixels }
  let info : RegionInfo := ⟨bitmap.width, bitmap.height, x, y, options.operator⟩
  let data := Refinement.encodeRegion info params reference bitmap
  let number ← writeSegment (.region .refinement .immediateLossless) canvas.number [] data
  drawOnPage bitmap x y options.operator
  return number

/-- The page to which a dictionary or a table belongs: the open one, or none. -/
def currentPage : Encoding Nat := return (((← get).page).map (·.number)).getD 0

/-- Write a symbol dictionary. All symbols are exported unless flags say otherwise. -/
def addDictionary (symbols : List Bitmap) (coding : Symbol.Coding) (exports : Option (List Bool)) :
    Encoding WrittenDictionary := do
  let flags := exports.getD (symbols.map fun _ => true)
  let encoded ← ExceptT.mk (pure (Symbol.encode symbols flags coding))
  let segment ← writeSegment .symbolDictionary (← currentPage) [] encoded.data
  let exported := encoded.exported.filterMap fun i => symbols[i]?
  return ⟨segment, exported.toArray, encoded.exported, encoded.order⟩

/-- Write a Huffman table. Also gives the number of its segment. -/
def addCodeTable (table : Huffman.CodeTable) : Encoding Nat := do
  let data ← ExceptT.mk (pure table.write)
  writeSegment .tables (← currentPage) [] data

/-- Draw instances of symbols onto a bitmap. -/
def drawInstances (symbols : Array Bitmap) (instances : List Text.Placement) (region : Bitmap) :
    Bitmap :=
  instances.foldl (fun region p =>
    match symbols[p.symbol]? with
    | some symbol => region.combine symbol p.x p.y .or
    | none => region) region

/-- Write a text region with instances of the symbols of some dictionaries, and draw it onto the
page. Also gives the number of its segment. -/
def addText (dictionaries : List WrittenDictionary) (instances : List Text.Placement)
    (info : RegionInfo) (logStrips : Nat) : Encoding Nat := do
  let canvas ← openPage
  if info.width = 0 ∨ info.height = 0 then throw .emptyBitmap
  let symbols := dictionaries.foldl (fun symbols d => symbols ++ d.symbols) #[]
  let data ← ExceptT.mk (pure (Text.encodeRegion info symbols instances logStrips))
  let region := drawInstances symbols instances (.blank info.width info.height)
  let number ← writeSegment (.region .text .immediateLossless) canvas.number
    (dictionaries.map (·.segment)) data
  drawOnPage region info.x info.y info.operator
  return number

/-! ## Streams -/

/-- The stream of all segments, after the end of the open page. -/
def finish (e : Encoder) : Bytes := (endPage.run e).2.written

/-- The header of the segment that ends a file. -/
def endOfFile (number : Nat) : SegmentHeader where
  number := number
  kind := .endOfFile
  deferredNonRetain := false
  retention := [false]
  referred := []
  page := 0
  dataLength := some 0

/-- A file of all segments, after the end of the open page. -/
def toFile (e : Encoder) : Bytes :=
  let e := (endPage.run e).2
  let header : FileHeader := ⟨.sequential, some e.pageCount⟩
  let w := (header.write .empty).writeBytes e.written
  ((endOfFile e.nextSegment).write w).data

end Encoder
end Bilevel

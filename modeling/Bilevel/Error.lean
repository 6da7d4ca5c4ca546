/-!
# Errors

What can go wrong while a stream is decoded or a page is encoded. An error is a value that names
its cause; the wording of each cause is fixed in one `message` function.
-/

namespace Bilevel

/-- Ways in which a segment or a file breaks the rules of the format. -/
inductive FormatError where
  | invalidFileHeader
  | reservedBits
  | unknownSegmentType (code : Nat)
  | invalidReferredCount
  | invalidPageAssociation
  | unknownLength
  | missingEndMarker
  | invalidCombinationOperator
  | invalidDimension
  | invalidAtPixel
  | missingPageInformation
  | duplicatePageInformation
  | tooManyInstances
  | symbolOutOfRange
  | exportCountMismatch
  | invalidSymbolSize
  | contextMismatch
  deriving DecidableEq, Repr

def FormatError.message : FormatError → String
  | .invalidFileHeader => "invalid JBIG2 file header"
  | .reservedBits => "reserved bits must be zero"
  | .unknownSegmentType code => s!"unknown segment type {code}"
  | .invalidReferredCount => "invalid referred-to segment count"
  | .invalidPageAssociation => "invalid page association"
  | .unknownLength => "unknown segment data length"
  | .missingEndMarker => "missing end marker for unknown-length region"
  | .invalidCombinationOperator => "invalid combination operator"
  | .invalidDimension => "invalid dimension value"
  | .invalidAtPixel => "invalid adaptive template pixel location"
  | .missingPageInformation => "region before page information"
  | .duplicatePageInformation => "duplicate page information"
  | .tooManyInstances => "too many symbol instances"
  | .symbolOutOfRange => "symbol ID out of range"
  | .exportCountMismatch => "exported symbol count mismatch"
  | .invalidSymbolSize => "invalid symbol size"
  | .contextMismatch => "retained coding contexts don't match"

/-- Features of the format that this library doesn't decode. -/
inductive UnsupportedFeature where
  | mmr
  | halftone
  | patternDictionary
  | extendedTemplate
  | colourExtension
  | imageTooLarge
  deriving DecidableEq, Repr

def UnsupportedFeature.message : UnsupportedFeature → String
  | .mmr => "MMR coding"
  | .halftone => "halftone regions"
  | .patternDictionary => "pattern dictionaries"
  | .extendedTemplate => "extended generic templates"
  | .colourExtension => "coloured regions"
  | .imageTooLarge => "image exceeds the pixel limit"

/-- Ways in which a reference from one segment to another fails. -/
inductive ReferenceError where
  | forward (segment referred : Nat)
  | missing (segment : Nat)
  | wrongType (segment : Nat)
  deriving DecidableEq, Repr

def ReferenceError.message : ReferenceError → String
  | .forward segment referred => s!"segment {segment} refers to later segment {referred}"
  | .missing segment => s!"segment {segment} is not available"
  | .wrongType segment => s!"segment {segment} has an unexpected type"

/-- Ways in which a Huffman table, or data coded with one, is invalid. -/
inductive HuffmanError where
  | invalidCode
  | invalidSelection
  | missingTables
  | invalidTable
  | unexpectedOob
  | unknownStandardTable (number : Nat)
  deriving DecidableEq, Repr

def HuffmanError.message : HuffmanError → String
  | .invalidCode => "invalid Huffman code"
  | .invalidSelection => "invalid Huffman table selection"
  | .missingTables => "not enough referred Huffman tables"
  | .invalidTable => "Huffman table is not a prefix code"
  | .unexpectedOob => "unexpected out-of-band value"
  | .unknownStandardTable number => s!"no standard Huffman table {number}"

/-- Why a segment, a stream or a file can't be decoded. -/
inductive DecodeError where
  | malformed (cause : FormatError)
  | unsupported (feature : UnsupportedFeature)
  | unexpectedEnd
  | reference (cause : ReferenceError)
  | huffman (cause : HuffmanError)
  | overflow
  deriving DecidableEq, Repr

def DecodeError.message : DecodeError → String
  | .malformed cause => "malformed segment: " ++ cause.message
  | .unsupported feature => "unsupported feature: " ++ feature.message
  | .unexpectedEnd => "unexpected end of data"
  | .reference cause => "invalid reference: " ++ cause.message
  | .huffman cause => cause.message
  | .overflow => "arithmetic overflow"

/-- Why an encoder call is refused. -/
inductive EncodeError where
  | emptyBitmap
  | dimensionMismatch
  | symbolOutOfRange
  | valueNotRepresentable
  | noPage
  deriving DecidableEq, Repr

def EncodeError.message : EncodeError → String
  | .emptyBitmap => "empty bitmap"
  | .dimensionMismatch => "bitmap dimensions don't match"
  | .symbolOutOfRange => "symbol ID out of range"
  | .valueNotRepresentable => "value is not representable"
  | .noPage => "no page has been started"

end Bilevel

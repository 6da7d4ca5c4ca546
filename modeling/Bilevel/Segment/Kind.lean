/-!
# Kinds of segments

A stream is made of segments. Some hold things that others use, some hold regions of a page, and
some mark where pages begin and end. Every kind has a number.
-/

namespace Bilevel

/-- How the pixels of a region are coded. -/
inductive RegionCoding where
  | text
  | halftone
  | generic
  | refinement
  deriving DecidableEq, Repr

/-- Whether a region is kept for later segments or drawn onto its page. -/
inductive RegionUse where
  | intermediate
  | immediate
  | immediateLossless
  deriving DecidableEq, Repr

inductive SegmentKind where
  | symbolDictionary
  | patternDictionary
  | region (coding : RegionCoding) (use : RegionUse)
  | pageInformation
  | endOfPage
  | endOfStripe
  | endOfFile
  | profiles
  | tables
  | colourPalette
  | extension
  deriving DecidableEq, Repr

namespace SegmentKind

/-- The kind with a given number. -/
def ofCode? : Nat → Option SegmentKind
  | 0 => some symbolDictionary
  | 4 => some (region .text .intermediate)
  | 6 => some (region .text .immediate)
  | 7 => some (region .text .immediateLossless)
  | 16 => some patternDictionary
  | 20 => some (region .halftone .intermediate)
  | 22 => some (region .halftone .immediate)
  | 23 => some (region .halftone .immediateLossless)
  | 36 => some (region .generic .intermediate)
  | 38 => some (region .generic .immediate)
  | 39 => some (region .generic .immediateLossless)
  | 40 => some (region .refinement .intermediate)
  | 42 => some (region .refinement .immediate)
  | 43 => some (region .refinement .immediateLossless)
  | 48 => some pageInformation
  | 49 => some endOfPage
  | 50 => some endOfStripe
  | 51 => some endOfFile
  | 52 => some profiles
  | 53 => some tables
  | 54 => some colourPalette
  | 62 => some extension
  | _ => none

/-- The number of a kind. -/
def code : SegmentKind → Nat
  | symbolDictionary => 0
  | region .text .intermediate => 4
  | region .text .immediate => 6
  | region .text .immediateLossless => 7
  | patternDictionary => 16
  | region .halftone .intermediate => 20
  | region .halftone .immediate => 22
  | region .halftone .immediateLossless => 23
  | region .generic .intermediate => 36
  | region .generic .immediate => 38
  | region .generic .immediateLossless => 39
  | region .refinement .intermediate => 40
  | region .refinement .immediate => 42
  | region .refinement .immediateLossless => 43
  | pageInformation => 48
  | endOfPage => 49
  | endOfStripe => 50
  | endOfFile => 51
  | profiles => 52
  | tables => 53
  | colourPalette => 54
  | extension => 62

theorem ofCode?_code (kind : SegmentKind) : ofCode? kind.code = some kind := by
  cases kind with
  | region coding use => cases coding <;> cases use <;> rfl
  | _ => rfl

theorem code_lt (kind : SegmentKind) : kind.code < 64 := by
  cases kind with
  | region coding use => cases coding <;> cases use <;> decide
  | _ => decide

/-- Whether segments of this kind only make sense as part of a page. -/
def pageBound : SegmentKind → Bool
  | region _ _ | pageInformation | endOfPage | endOfStripe => true
  | _ => false

/-- Whether the header of such a segment may leave the length of its data open. -/
def allowsUnknownLength : SegmentKind → Bool
  | region .generic .immediate | region .generic .immediateLossless => true
  | _ => false

end SegmentKind
end Bilevel

import Bilevel.Error

/-!
# Decoding settings

How large an image may be, and whether reserved bits are checked.
-/

namespace Bilevel

/-- The limits under which a stream is decoded. -/
structure DecodeSettings where
  /-- No bitmap has more pixels than this. -/
  maxPixelCount : Nat := 0x40000000
  /-- Whether a reserved bit that is set is an error. -/
  strict : Bool := false
  deriving DecidableEq, Repr

/-- Under strict settings, the reserved bits of a field must be zero. -/
def DecodeSettings.checkReserved (settings : DecodeSettings) (reserved : Nat) :
    Except DecodeError Unit :=
  if settings.strict && reserved != 0 then .error (.malformed .reservedBits) else .ok ()

end Bilevel

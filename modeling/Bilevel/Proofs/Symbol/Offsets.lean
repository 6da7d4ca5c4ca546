import Bilevel.Proofs.Symbol.Reads
import Bilevel.Proofs.Trace.Overflow

/-!
# What is read about references

The distance of a reference is a number that is read, or it is worked out from such numbers. Numbers
that are read fit signed numbers of 32 bits, and adaptive pixels fit bytes.

## Main results

* `Source.gives_readNumber` — numbers.
* `Text.Header.gives_read`, `Symbol.Header.gives_read`, `Refinement.gives_readHeader` — adaptive
  pixels.
-/

namespace Bilevel

/-! ## Numbers that are read -/

/-- The magnitude of a number is checked. -/
theorem Mq.Integer.fits_of_decode {d d' : Mq.Decoder} {contexts learnt : Mq.Contexts}
    {value : Value} (h : decode d contexts = .ok (value, learnt, d')) :
    ∀ n ∈ value, FitsSigned n := by
  unfold decode at h
  generalize (Decoding.mk d contexts 1).readBit = sign at h
  obtain ⟨negative, s⟩ := sign
  dsimp only at h
  generalize s.readMagnitude tiers = magnitude at h
  obtain ⟨-, -, h⟩ := bind_eq_ok.mp h
  split at h
  · next hle =>
    cases h
    unfold ofMagnitude FitsSigned
    intro n hn
    split at hn
    · split at hn
      · cases hn
      · cases hn
        omega
    · cases hn
      omega
  · exact absurd h throw_ne_ok

theorem Huffman.Table.gives_decode (table : Table) :
    Gives (fun value => ∀ n ∈ value, FitsSigned n) table.decode := by
  refine .bind_any fun range => .bind_any fun place => ?_
  cases range.valueAt place with
  | none =>
    refine .pure fun n hn => ?_
    cases hn
  | some value =>
    intro r decoded r' h
    obtain ⟨n, r₁, hcheck, h⟩ := run_bind_eq_ok.mp h
    cases h
    obtain ⟨hfits, rfl⟩ := checkSigned_eq_ok.mp (run_lift_eq_ok.mp hcheck).1
    exact fun m hm => Option.some.inj hm ▸ hfits

theorem Source.gives_readValue (q : Quantity) :
    Gives (fun value => ∀ n ∈ value, FitsSigned n) (readValue q) := by
  intro s value s' h
  cases s with
  | decisions decoder contexts =>
    obtain ⟨⟨_, _, _⟩, hdecode, h⟩ := bind_eq_ok.mp h
    cases h
    exact Mq.Integer.fits_of_decode hdecode
  | codes reader tables ids =>
    obtain ⟨⟨_, _⟩, hdecode, h⟩ := bind_eq_ok.mp h
    cases h
    exact (tables q).gives_decode _ _ _ hdecode

theorem Source.gives_readNumber (q : Quantity) : Gives FitsSigned (readNumber q) := by
  intro s n s' h
  exact gives_readValue q s (some n) s' (readValue_of_readNumber h) n rfl

/-! ## Adaptive pixels -/

theorem Reader.gives_readSigned_one :
    Gives (fun n => -128 ≤ n ∧ n ≤ 127) (Reader.readSigned 1) := by
  refine .bind_any fun n => .pure ?_
  change -128 ≤ Int.bmod n 256 ∧ Int.bmod n 256 ≤ 127
  have hlow := Int.le_bmod (x := n) (m := 256) (by decide)
  have hhigh := Int.bmod_lt (x := n) (m := 256) (by decide)
  omega

theorem AtPixel.gives_read : Gives Fits read :=
  Reader.gives_readSigned_one.bind fun _ hx =>
    Reader.gives_readSigned_one.bind fun _ hy => .pure ⟨hx, hy⟩

namespace RefinementAt

theorem fits_nominal : Fits {} := ⟨by decide, by decide⟩

theorem gives_read : Gives Fits read := by
  refine AtPixel.gives_read.bind fun current hcurrent => ?_
  refine AtPixel.gives_read.bind fun reference hreference => ?_
  split
  · exact .bind_any fun _ => .pure ⟨hcurrent, hreference⟩
  · exact .pure ⟨hcurrent, hreference⟩

end RefinementAt

namespace Text

theorem RefinementStyle.gives_read (template : RefinementTemplate) (used : Bool) :
    Gives (fun style => style.atPixels.Fits) (read template used) := by
  unfold read
  split
  · exact RefinementAt.gives_read.bind fun _ h => .pure h
  · exact .pure RefinementAt.fits_nominal

theorem Header.gives_read (settings : DecodeSettings) :
    Gives (fun header => header.params.style.atPixels.Fits) (Header.read settings) := by
  refine .bind_any fun info => .bind_any fun flags => ?_
  split
  · extract_lets refines layout readRest
    have hrest : ∀ selections,
        Gives (fun header => header.params.style.atPixels.Fits) (readRest selections) :=
      fun _ => (RefinementStyle.gives_read _ _).bind fun _ h => .bind_any fun _ => .pure h
    split
    · exact .bind_any fun _ => .bind_any fun _ => .bind_any hrest
    · exact .bind_any hrest
  · exact .throw _

end Text

theorem Symbol.Header.gives_read (settings : DecodeSettings) :
    Gives (fun header => header.style.refinement.atPixels.Fits) (Header.read settings) := by
  refine .bind_any fun flags => .bind_any fun _ => ?_
  extract_lets template aggregates readPixels
  have hpixels : ∀ selections,
      Gives (fun header => header.style.refinement.atPixels.Fits) (readPixels selections) := by
    intro selections
    dsimp -zeta only [readPixels]
    extract_lets readStyle
    have hstyle : ∀ atPixels,
        Gives (fun header => header.style.refinement.atPixels.Fits) (readStyle atPixels) :=
      fun _ => (Text.RefinementStyle.gives_read _ _).bind fun _ h =>
        .bind_any fun _ => .bind_any fun _ => .pure h
    split
    · exact .bind_any hstyle
    · exact .bind_any hstyle
  split
  · exact .bind_any fun _ => .bind_any hpixels
  · exact .bind_any hpixels

/-- The reference of a region has the place of the region. -/
theorem Refinement.gives_readHeader (settings : DecodeSettings) :
    Gives (fun read => read.2.atPixels.Fits ∧ read.2.dx = 0 ∧ read.2.dy = 0)
      (readHeader settings) := by
  refine .bind_any fun info => .bind_any fun flags => .bind_any fun _ => ?_
  extract_lets template finish
  have hfinish : ∀ atPixels : RefinementAt, atPixels.Fits →
      Gives (fun read => read.2.atPixels.Fits ∧ read.2.dx = 0 ∧ read.2.dy = 0) (finish atPixels) :=
    fun _ h => .pure ⟨h, rfl, rfl⟩
  split
  · exact RefinementAt.gives_read.bind hfinish
  · exact (Gives.pure RefinementAt.fits_nominal).bind hfinish

end Bilevel

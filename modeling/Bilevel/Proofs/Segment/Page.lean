import Bilevel.Proofs.Bits.Reads
import Bilevel.Segment.Page

/-!
# Reading back page information

## Main results

* `PageInfo.readsBytes` — page information whose numbers fit their fields is read back.
-/

namespace Bilevel.PageInfo

open Bits

/-- The byte of flags. -/
def flagsOf (info : PageInfo) : Nat :=
  info.lossless.toNat + 2 * info.mightRefine.toNat + 4 * info.startsBlack.toNat +
    8 * info.operator.code + 64 * info.overridesOperator.toNat

/-- The field for stripes. -/
def stripingOf (info : PageInfo) : Nat :=
  match info.maxStripe with
  | some rows => 0x8000 + rows % 0x8000
  | none => 0

/-- The bytes of the fields. -/
def bytes (info : PageInfo) : Bytes :=
  toBigEndian 4 info.width ++ (toBigEndian 4 (info.height.getD unknownHeight) ++
    (toBigEndian 4 info.xResolution ++ (toBigEndian 4 info.yResolution ++
      (toBigEndian 1 info.flagsOf ++ toBigEndian 2 info.stripingOf))))

theorem write_eq (info : PageInfo) (w : Writer) : info.write w = w.writeBytes info.bytes := by
  cases hrows : info.maxStripe <;>
    simp [write, bytes, flagsOf, stripingOf, hrows, Writer.writeUnsigned, Writer.writeBytes,
      Array.append_assoc]

/-- Whether page information can be written: the numbers fit their fields, a page of open height
comes in stripes, and its operator is not replacement. -/
structure Fits (info : PageInfo) : Prop where
  width : info.width ≤ 0xFFFFFFFF
  height : ∀ n ∈ info.height, n < unknownHeight
  xResolution : info.xResolution ≤ 0xFFFFFFFF
  yResolution : info.yResolution ≤ 0xFFFFFFFF
  operator : info.operator ≠ .replace
  maxStripe : ∀ rows ∈ info.maxStripe, rows < 0x8000
  striped : info.height = none → info.maxStripe.isSome

theorem flags_spec {info : PageInfo} (h : info.operator ≠ .replace) :
    info.flagsOf < 256 ∧
      CombinationOperator.ofCode? (info.flagsOf / 8 % 4) = some info.operator ∧
      info.flagsOf.testBit 0 = info.lossless ∧ info.flagsOf.testBit 1 = info.mightRefine ∧
      info.flagsOf.testBit 2 = info.startsBlack ∧
      info.flagsOf.testBit 6 = info.overridesOperator := by
  obtain ⟨width, height, xResolution, yResolution, lossless, mightRefine, startsBlack, operator,
    overridesOperator, maxStripe⟩ := info
  simp only [flagsOf]
  cases lossless <;> cases mightRefine <;> cases startsBlack <;> cases overridesOperator <;>
    cases operator <;> first | exact absurd rfl h | decide

theorem striping_spec {info : PageInfo} (h : ∀ rows ∈ info.maxStripe, rows < 0x8000) :
    info.stripingOf < 256 ^ 2 ∧ info.stripingOf.testBit 15 = info.maxStripe.isSome ∧
      (if info.stripingOf.testBit 15 then some (info.stripingOf % 0x8000) else none) =
        info.maxStripe := by
  unfold stripingOf
  cases hrows : info.maxStripe with
  | none => decide
  | some rows =>
    have hlt := h rows hrows
    have hbit : (0x8000 + rows % 0x8000).testBit 15 = true := by
      rw [Nat.testBit_eq_decide_div_mod_eq]
      simp
    simp only [hbit, if_true, Option.isSome_some, Option.some.injEq, true_and]
    omega

/-- Page information is read back as it was written. -/
theorem readsBytes {info : PageInfo} (h : info.Fits) : ReadsBytes read info.bytes info := by
  obtain ⟨hflags, hoperator, hlossless, hrefine, hblack, hoverrides⟩ := flags_spec h.operator
  obtain ⟨hstriping, hstriped, hrows⟩ := striping_spec h.maxStripe
  have hheight : info.height.getD unknownHeight < 256 ^ 4 := by
    cases hn : info.height with
    | none => decide
    | some n =>
      have := h.height n hn
      unfold unknownHeight at this
      rw [Option.getD_some]
      omega
  have hopen : (if info.height.getD unknownHeight = unknownHeight then none
      else some (info.height.getD unknownHeight)) = info.height := by
    cases hn : info.height with
    | none => rfl
    | some n => exact if_neg (h.height n hn).ne
  have hgiven : ¬(info.height.getD unknownHeight = unknownHeight ∧
      info.stripingOf.testBit 15 = false) := by
    rintro ⟨hunknown, hplain⟩
    cases hn : info.height with
    | none =>
      rw [hstriped, h.striped hn] at hplain
      exact Bool.false_ne_true hplain.symm
    | some n =>
      rw [hn] at hunknown
      exact (h.height n hn).ne hunknown
  refine (readsBytes_readUnsigned (by have := h.width; omega)).bind ?_
  refine (readsBytes_readUnsigned hheight).bind ?_
  refine (readsBytes_readUnsigned (by have := h.xResolution; omega)).bind ?_
  refine (readsBytes_readUnsigned (by have := h.yResolution; omega)).bind ?_
  refine (readsBytes_readUnsigned hflags).bind ?_
  simp only [hoperator]
  refine (readsBytes_readUnsigned hstriping).bind_last ?_
  simp only [hgiven, if_false, hopen, hrows, hlossless, hrefine, hblack, hoverrides]
  exact readsBytes_pure info

end Bilevel.PageInfo

import Bilevel.Proofs.Encoder.Session

/-!
# Refused calls

A call that is refused leaves the encoder as it was, but for one exception: a page can only start
when the open one has ended, and if there are no numbers left then, it stays ended. This makes no
difference to the stream and to the file, and the same call is refused again for the same reason.

## Main definitions

* `Call.outcome` — whether a call succeeds, and the encoder behind it.
* `Call.endsPage` — whether a call ends the open page first.

## Main results

* `startPage_refused` — a page that isn't started.
* `outcome_refused` — what a refused call leaves behind.
-/

namespace Bilevel.Encoder

variable {α : Type} {m : Encoding α} {e after : Encoder} {error : EncodeError}

/-- A result without what was given. -/
def forget (result : Except EncodeError α × Encoder) : Except EncodeError Unit × Encoder :=
  (result.1.map fun _ => (), result.2)

theorem forget_eq_error {result : Except EncodeError α × Encoder} :
    forget result = (.error error, after) ↔ result = (.error error, after) := by
  obtain ⟨a | a, e⟩ := result <;> simp [forget, Except.map]

namespace Call

/-- Whether a call succeeds, and the encoder behind it. -/
def outcome (e : Encoder) : Call → Except EncodeError Unit × Encoder
  | .startPage width height => forget ((Encoder.startPage width height).run e)
  | .endPage => forget (Encoder.endPage.run e)
  | .generic bitmap x y options => forget ((addGeneric bitmap x y options).run e)
  | .refinement bitmap x y options => forget ((addRefinement bitmap x y options).run e)
  | .dictionary symbols coding exports => forget ((addDictionary symbols coding exports).run e)
  | .codeTable table => forget ((addCodeTable table).run e)
  | .text dictionaries instances info logStrips =>
    forget ((addText dictionaries instances info logStrips).run e)

/-- Whether a call ends the open page before it does anything else. -/
def endsPage : Call → Bool
  | .startPage width height => 0 < width && 0 < height
  | .endPage => true
  | _ => false

end Call

/-! ## Pages -/

/-- There is nothing more to end behind the end of a page. -/
theorem endPage_endPage (e : Encoder) : (endPage.run (endPage.run e).2).2 = (endPage.run e).2 := by
  rw [run_endPage_none (page_endPage e)]

theorem finish_endPage (e : Encoder) : (endPage.run e).2.finish = e.finish :=
  congrArg written (endPage_endPage e)

theorem toFile_endPage (e : Encoder) : (endPage.run e).2.toFile = e.toFile := by
  unfold toFile
  rw [endPage_endPage]

/-- A page that isn't started: if it would have pixels, the open page has ended before it turns out
that numbers run out, and they still do at the next attempt. -/
theorem startPage_refused {width height : Nat}
    (h : (startPage width height).run e = (.error error, after)) :
    after = (if 0 < width && 0 < height then (endPage.run e).2 else e) ∧
      (startPage width height).run after = (.error error, after) := by
  have hrun := run_startPage e width height
  have hagain := run_startPage (endPage.run e).2 width height
  dsimp only at hrun hagain
  rw [h] at hrun
  by_cases hempty : width = 0 ∨ height = 0
  · rw [if_pos hempty] at hrun
    obtain ⟨-, rfl⟩ := Prod.mk.inj hrun
    have hzero : ¬(0 < width && 0 < height) = true := by
      rcases hempty with rfl | rfl <;> simp
    exact ⟨(if_neg hzero).symm, h⟩
  · rw [if_neg hempty] at hrun hagain
    have hpos : (0 < width && 0 < height) = true := by
      simp
      omega
    split at hrun
    · next hroom =>
      rw [endPage_endPage, if_pos hroom] at hagain
      obtain ⟨herror, rfl⟩ := Prod.mk.inj hrun
      exact ⟨(if_pos hpos).symm, herror ▸ hagain⟩
    · cases (Prod.mk.inj hrun).1

/-! ## All calls -/

/-- A call that either changes nothing and is refused, or succeeds. -/
theorem eq_of_refused {Succeeds : Prop} (hcases : Refused m e ∨ Succeeds)
    (hsucceeds : Succeeds → ∃ a e', m.run e = (.ok a, e')) (h : m.run e = (.error error, after)) :
    after = e := by
  rcases hcases with ⟨error', hrefused⟩ | hok
  · exact (Prod.mk.inj (h.symm.trans hrefused)).2
  · obtain ⟨a, e', hrun⟩ := hsucceeds hok
    cases h.symm.trans hrun

/-- What a refused call leaves behind is what there was before, or what is left when the open page
has ended. -/
theorem outcome_eq_error {call : Call} (h : call.outcome e = (.error error, after)) :
    after = (if call.endsPage then (endPage.run e).2 else e) ∧
      call.outcome after = (.error error, after) := by
  have hsame (hafter : after = e) : after = e ∧ call.outcome after = (.error error, after) :=
    ⟨hafter, hafter ▸ h⟩
  cases call with
  | startPage width height =>
    have hrefused := startPage_refused (forget_eq_error.mp h)
    exact ⟨hrefused.1, forget_eq_error.mpr hrefused.2⟩
  | endPage =>
    have hrun := forget_eq_error.mp h
    cases (congrArg Prod.fst hrun).symm.trans (run_endPage_fst e)
  | generic bitmap x y options =>
    exact hsame (eq_of_refused (addGeneric_cases bitmap x y e options)
      (fun ⟨_, e', hrun, _⟩ => ⟨_, e', hrun⟩) (forget_eq_error.mp h))
  | refinement bitmap x y options =>
    exact hsame (eq_of_refused (addRefinement_cases bitmap x y e options)
      (fun ⟨_, e', hrun, _⟩ => ⟨_, e', hrun⟩) (forget_eq_error.mp h))
  | dictionary symbols coding exports =>
    exact hsame (eq_of_refused (addDictionary_cases symbols coding exports e)
      (fun ⟨_, _, _, hrun⟩ => ⟨_, _, hrun⟩) (forget_eq_error.mp h))
  | codeTable table =>
    exact hsame (eq_of_refused (addCodeTable_cases table e)
      (fun ⟨_, _, _, hrun⟩ => ⟨_, _, hrun⟩) (forget_eq_error.mp h))
  | text dictionaries instances info logStrips =>
    exact hsame (eq_of_refused (addText_cases dictionaries instances info logStrips e)
      (fun ⟨_, _, e', hrun, _⟩ => ⟨_, e', hrun⟩) (forget_eq_error.mp h))

/-- A refused call leaves the encoder as it was, or, if it is a page that numbers aren't enough for,
as the end of the open page leaves it. Either way no page is counted, the stream and the file are
those without the call, and the call is refused again for the same reason. -/
theorem outcome_refused {call : Call} (h : call.outcome e = (.error error, after)) :
    (after = (if call.endsPage then (endPage.run e).2 else e) ∧ after.pageCount = e.pageCount) ∧
      (after.finish = e.finish ∧ after.toFile = e.toFile) ∧
      call.outcome after = (.error error, after) := by
  obtain ⟨hafter, hagain⟩ := outcome_eq_error h
  refine ⟨⟨hafter, ?_⟩, ⟨?_, ?_⟩, hagain⟩ <;> rw [hafter] <;> split
  · exact pageCount_endPage e
  · rfl
  · exact finish_endPage e
  · rfl
  · exact toFile_endPage e
  · rfl

/-- An encoder with an open page and two numbers left. -/
def nearlyFull : Encoder := ((Session.start 0xFFFFFFFC).run [.startPage 1 1]).encoder

/-- The end of the open page takes one of these numbers, and the other one isn't enough for the next
page. -/
theorem outcome_refused_nearlyFull :
    let after := (endPage.run nearlyFull).2
    (Call.startPage 1 1).outcome nearlyFull = (.error .valueNotRepresentable, after) ∧
      after.finish = nearlyFull.finish ∧ after.toFile = nearlyFull.toFile ∧
      (Call.startPage 1 1).outcome after = (.error .valueNotRepresentable, after) := by
  intro after
  have h : (Call.startPage 1 1).outcome nearlyFull = (.error .valueNotRepresentable, after) := by
    decide +kernel
  obtain ⟨-, ⟨hfinish, htoFile⟩, hagain⟩ := outcome_refused h
  exact ⟨h, hfinish, htoFile, hagain⟩

/-- A call can be refused and still change the encoder: the page that was open isn't any more, and
its end has been written. -/
theorem ne_of_refused_nearlyFull :
    let outcome := (Call.startPage 1 1).outcome nearlyFull
    outcome.1 = .error .valueNotRepresentable ∧ outcome.2 ≠ nearlyFull ∧
      (nearlyFull.nextSegment = 0xFFFFFFFD ∧ nearlyFull.pageBitmap? = some (.blank 1 1)) ∧
      outcome.2.nextSegment = 0xFFFFFFFE ∧ outcome.2.pageBitmap? = none := by
  decide +kernel

end Bilevel.Encoder

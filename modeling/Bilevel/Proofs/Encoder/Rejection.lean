import Bilevel.Proofs.Encoder.RoundTrip

/-!
# Segments that can't be decoded

Not everything that an encoder accepts can be decoded. It doesn't check where regions end, nor the
places that a decoder computes on the way to an instance, nor whether a table has a value below its
ranges and lengths that make a code. Everything else that it accepts is decoded.

## Main results

* `Session.Counted.readable_of_effect` — what is decoded without failures can be read.
* `Session.decode_finish_iff` — when all that calls write is decoded without failures.
-/

namespace Bilevel.Assembly

variable {settings : DecodeSettings} {shared : Option Store} {a : Assembly}

theorem failures_of_foldl {segments : List Segment}
    (h : (segments.foldl (process settings shared) a).failures = #[]) : a.failures = #[] := by
  induction segments generalizing a with
  | nil => exact h
  | cons segment segments ih => exact failures_of_process (ih h)

end Bilevel.Assembly

namespace Bilevel.Encoder.Session

variable {settings : DecodeSettings} {s s' : Session} {segments new : List Segment} {call : Call}

/-- What a call writes can be read if it is decoded without failures. -/
theorem Counted.readable_of_effect (h : s.Counted) {a : Assembly}
    (hmirrors : Mirrors s.encoder.page s.ended s.dictionaries a) (heffect : Effect s call s' new)
    (hsettings : 0x40000000 ≤ settings.maxPixelCount) (hsized : call.Sized s)
    (hclean : (new.foldl (Assembly.process settings none) a).failures = #[])
    (haccepted : call.accepted s.encoder = true) : call.Readable := by
  cases heffect with
  | refused hrefused => exact absurd haccepted (by simp [hrefused])
  | empty | noPage | ended | closed | opened | dictionary => trivial
  | generic _ hpos hallowed hdrew =>
    obtain ⟨hpixels, hplace, hfits⟩ := hsized
    rw [hdrew.page] at hmirrors
    exact hmirrors.ends_of_generic (fits_info hpos hpixels hplace) (hpixels.trans hsettings)
      (writable_codingOf hallowed hfits) hclean
  | refinement _ hpos hdrew =>
    obtain ⟨hpixels, hplace⟩ := hsized
    rw [hdrew.page] at hmirrors
    exact hmirrors.ends_of_refinement (fits_info hpos hpixels hplace) hclean
  | text _ hpos hencode hdrew =>
    obtain ⟨hpixels, hplace, ⟨hused, -⟩, hinstances⟩ := hsized
    rw [hdrew.page] at hmirrors
    exact hmirrors.legible_of_text hused hencode (fits_info hpos hpixels hplace)
      (hpixels.trans hsettings) (h.sided_symbolsOf hused) hinstances hclean
  | codeTable _ hwrite => exact hmirrors.readable_of_table hwrite hsized hclean

/-- The segments that calls write can be found again, and if nothing fails then all that is accepted
can be read. -/
theorem Sound.exists_run (h : Sound settings s segments)
    (hsettings : 0x40000000 ≤ settings.maxPixelCount) {calls : List Call}
    (hsized : s.Sized calls) :
    ∃ more, (s.run calls).Legible (segments ++ more) ∧
      ((assemble settings (segments ++ more)).failures = #[] → s.Readable calls) := by
  induction calls generalizing s segments with
  | nil => exact ⟨[], (List.append_nil segments).symm ▸ h.toLegible, fun _ => trivial⟩
  | cons call calls ih =>
    obtain ⟨⟨hcall, hdata⟩, hsized⟩ := hsized
    obtain ⟨new, heffect⟩ := h.exists_effect call
    by_cases hread : call.accepted s.encoder = true → call.Readable
    · obtain ⟨more, hrun, hreadable⟩ := ih (h.effect heffect hsettings hcall hdata hread) hsized
      rw [List.append_assoc] at hrun hreadable
      exact ⟨new ++ more, hrun, fun hclean => ⟨hread, hreadable hclean⟩⟩
    · -- This call writes what can't be read, so its failure remains whatever the others write.
      obtain ⟨more, hrun⟩ := (h.toLegible.effect heffect hcall hdata).run hsized
      rw [List.append_assoc] at hrun
      refine ⟨new ++ more, hrun, fun hclean => absurd (fun haccepted => ?_) hread⟩
      rw [assemble, List.foldl_append, List.foldl_append] at hclean
      exact h.readable_of_effect h.mirrors heffect hsettings hcall
        (Assembly.failures_of_foldl hclean) haccepted

/-- What calls write is decoded without failures exactly if all of it can be read. -/
theorem decode_finish_iff (hsettings : 0x40000000 ≤ settings.maxPixelCount) {first : Nat}
    (hfirst : first ≤ 0xFFFFFFFF) {calls : List Call} (hsized : (start first).Sized calls) :
    (∃ document, decode settings none ((start first).run calls).encoder.finish = .ok document ∧
      document.failures = #[]) ↔ (start first).Readable calls := by
  have hstart := Sound.start settings hfirst
  have hended := sized_concat_endPage hsized
  have hrun : (start first).run (calls ++ [.endPage]) =
      ((start first).run calls).step .endPage := List.foldl_append
  have hfinish : ((start first).run calls).encoder.finish =
      ((start first).run (calls ++ [.endPage])).encoder.written := congrArg (·.encoder.written) hrun.symm
  have hpage : ((start first).run (calls ++ [.endPage])).encoder.page = none := by
    rw [hrun, step_endPage]
    exact page_endPage _
  rw [hfinish, ← readable_concat_endPage]
  constructor
  · rintro ⟨document, hdecode, hclean⟩
    obtain ⟨more, hlegible, hreadable⟩ := hstart.exists_run hsettings hended
    rw [hlegible.decode_written settings] at hdecode
    obtain rfl := Document.eq_of_check hdecode
    exact hreadable ((Assembly.endAll_failures _).symm.trans hclean)
  · intro hreadable
    obtain ⟨more, hsound⟩ := hstart.run hsettings hended hreadable
    exact ⟨_, hsound.decode_written hpage, hsound.mirrors.failures⟩

/-- A dot in a given column of a page. -/
def dotAt (x : Nat) : List Call :=
  [.startPage 1 1, .generic (.blank 1 1) x 0 { template := .template3, skipsRows := false }]

/-- A dot can be in the column before the largest number, but not in the next one. -/
theorem decode_finish_dotAt :
    (∃ document, decode {} none ((start 0).run (dotAt 0xFFFFFFFE)).encoder.finish = .ok document ∧
      document.failures = #[]) ∧
    ¬∃ document, decode {} none ((start 0).run (dotAt 0xFFFFFFFF)).encoder.finish = .ok document ∧
      document.failures = #[] := by
  have hin : (start 0).Sized (dotAt 0xFFFFFFFE) ∧ (start 0).Readable (dotAt 0xFFFFFFFE) := by
    decide +kernel
  have hout : (start 0).Sized (dotAt 0xFFFFFFFF) ∧ ¬(start 0).Readable (dotAt 0xFFFFFFFF) := by
    decide +kernel
  exact ⟨(decode_finish_iff (by decide) (by decide) hin.1).mpr hin.2,
    fun h => hout.2 ((decode_finish_iff (by decide) (by decide) hout.1).mp h)⟩

/-- A table without a value below its lowest one, and a dot and its refinement in a column that
regions can't have; another dot can be read. -/
def unreadable : List Call :=
  let dot : Bitmap := .blank 1 1
  [.codeTable ⟨-0x80000000, [⟨1, 1⟩], 2, 2, none⟩,
    .startPage 1 1, .generic dot 0 0 { template := .template3, skipsRows := false },
    .startPage 1 1, .generic dot 0xFFFFFFFF 0 { template := .template3, skipsRows := false },
    .startPage 1 1, .refinement dot 0xFFFFFFFF 0 { template := .template1, skipsPixels := false }]

/-- All of these calls are accepted, and three of the segments that they write can't be decoded. -/
theorem failures_unreadable : (start 0).Sized unreadable ∧
    ((start 0).run unreadable).encoder.nextSegment = 9 ∧
    (decode {} none ((start 0).run unreadable).encoder.finish).toOption.map
      (fun document => document.failures.toList.map fun failure => (failure.segment, failure.error)) =
        some [(some 0, .overflow), (some 5, .overflow), (some 8, .overflow)] := by
  decide +kernel

end Bilevel.Encoder.Session

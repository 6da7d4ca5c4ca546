import Bilevel.Proofs.Encoder.Framing

/-!
# Calls that can be read

If what calls are given isn't too large, the segments that they write can be found again. Whether
decoders can read them too depends on where regions and instances end.

## Main definitions

* `Call.Sized`, `Call.Readable` — calls that are given nothing too large, and calls that write what
  can be read.
* `Session.Legible` — the segments that a session wrote can be found again.

## Main results

* `Session.Legible.effect`, `Session.Legible.run` — what calls write can be found again.
-/

namespace Bilevel.Encoder

namespace Call

/-- Whether what a call is given is small enough. Text uses dictionaries of the session. -/
def Sized (s : Session) : Call → Prop
  | .startPage width height => width * height ≤ 0x40000000
  | .endPage => True
  | .generic bitmap x y options => bitmap.width * bitmap.height ≤ 0x40000000 ∧
      (x ≤ 0xFFFFFFFF ∧ y ≤ 0xFFFFFFFF) ∧ ∀ pixels ∈ options.atPixels, ∀ p ∈ pixels, p.Fits
  | .refinement bitmap x y _ => bitmap.width * bitmap.height ≤ 0x40000000 ∧
      (x ≤ 0xFFFFFFFF ∧ y ≤ 0xFFFFFFFF)
  | .dictionary symbols _ _ => Symbol.Storable symbols
  | .codeTable table => FitsSigned table.low
  | .text dictionaries instances info _ => info.width * info.height ≤ 0x40000000 ∧
      (info.x ≤ 0xFFFFFFFF ∧ info.y ≤ 0xFFFFFFFF) ∧
      ((∀ d ∈ dictionaries, d ∈ s.dictionaries) ∧ dictionaries.length < 2 ^ 29) ∧
      ∀ p ∈ instances, FitsSigned p.x ∧ FitsSigned p.y

/-- Whether decoders can read what a call writes: regions end in the range of coordinates, instances
can be read, and tables have a value below the bounded ones and code words. -/
def Readable : Call → Prop
  | .generic bitmap x y _ | .refinement bitmap x y _ =>
    x + bitmap.width ≤ 0xFFFFFFFF ∧ y + bitmap.height ≤ 0xFFFFFFFF
  | .text dictionaries instances info logStrips =>
    (info.x + info.width ≤ 0xFFFFFFFF ∧ info.y + info.height ≤ 0xFFFFFFFF) ∧
      Text.Legible (symbolsOf dictionaries) instances logStrips
  | .codeTable table => FitsSigned (table.low - 1) ∧ (Huffman.Table.build table.lines).isOk
  | .startPage .. | .endPage | .dictionary .. => True

instance (s : Session) : (call : Call) → Decidable (call.Sized s)
  | .startPage .. => inferInstanceAs (Decidable (_ ≤ _))
  | .endPage => inferInstanceAs (Decidable True)
  | .generic .. => inferInstanceAs (Decidable (_ ∧ _ ∧ _))
  | .refinement .. => inferInstanceAs (Decidable (_ ∧ _ ∧ _))
  | .dictionary symbols _ _ => inferInstanceAs (Decidable (Symbol.Storable symbols))
  | .codeTable table => inferInstanceAs (Decidable (FitsSigned table.low))
  | .text .. => inferInstanceAs (Decidable (_ ∧ _ ∧ _ ∧ _))

instance : (call : Call) → Decidable call.Readable
  | .startPage .. => inferInstanceAs (Decidable True)
  | .endPage => inferInstanceAs (Decidable True)
  | .generic .. => inferInstanceAs (Decidable (_ ∧ _))
  | .refinement .. => inferInstanceAs (Decidable (_ ∧ _))
  | .dictionary .. => inferInstanceAs (Decidable True)
  | .codeTable .. => inferInstanceAs (Decidable (_ ∧ _))
  | .text .. => inferInstanceAs (Decidable (_ ∧ _))

end Call

namespace Session

variable {s s' : Session}

/-! ## Many calls -/

/-- Calls that are given nothing too large and write nothing too long. -/
def Sized (s : Session) : List Call → Prop
  | [] => True
  | call :: calls => (call.Sized s ∧ ∀ data ∈ call.data? s.encoder, data.size < 0xFFFFFFFF) ∧
      (s.step call).Sized calls

/-- Calls of which those that are accepted write what can be read. -/
def Readable (s : Session) : List Call → Prop
  | [] => True
  | call :: calls => (call.accepted s.encoder = true → call.Readable) ∧ (s.step call).Readable calls

instance decidableSized : (s : Session) → (calls : List Call) → Decidable (s.Sized calls)
  | _, [] => inferInstanceAs (Decidable True)
  | s, call :: calls =>
    have := decidableSized (s.step call) calls
    inferInstanceAs (Decidable (_ ∧ _))

instance decidableReadable : (s : Session) → (calls : List Call) → Decidable (s.Readable calls)
  | _, [] => inferInstanceAs (Decidable True)
  | s, call :: calls =>
    have := decidableReadable (s.step call) calls
    inferInstanceAs (Decidable (_ ∧ _))

/-- The end of the last page adds nothing too large, -/
theorem sized_concat_endPage {calls : List Call} (h : s.Sized calls) :
    s.Sized (calls ++ [.endPage]) := by
  induction calls generalizing s with
  | nil => exact ⟨⟨trivial, by simp [Call.data?]⟩, trivial⟩
  | cons call calls ih => exact ⟨h.1, ih h.2⟩

/-- and nothing that can't be read. -/
theorem readable_concat_endPage {calls : List Call} :
    s.Readable (calls ++ [.endPage]) ↔ s.Readable calls := by
  induction calls generalizing s with
  | nil => exact ⟨fun _ => trivial, fun _ => ⟨fun _ => trivial, trivial⟩⟩
  | cons call calls ih => exact and_congr_right fun _ => ih

/-! ## One call -/

section

variable {call : Call} {new : List Segment}

theorem Counted.effect (h : s.Counted) (heffect : Effect s call s' new) (hsized : call.Sized s) :
    s'.Counted := by
  induction heffect with
  | refused | empty | noPage => exact h
  | closed _ ih => exact ih trivial
  | ended hpage => exact h.ended hpage
  | opened _ hpage _ hcount hrefuses ih => exact (ih trivial).opened hpage hcount hrefuses
  | generic _ _ _ hdrew | refinement _ _ hdrew | text _ _ _ hdrew =>
    obtain ⟨hpage, hrefuses, rfl⟩ := hdrew
    refine h.append hrefuses (by simp) ?_
    rw [hpage]
    rfl
  | @dictionary symbols _ _ encoded hencode hrefuses =>
    have hsides : Text.Sided (dictionaryOf s.encoder.nextSegment symbols encoded).symbols := by
      intro symbol hsymbol
      have hle := Symbol.Storable.side_le hsized hencode (mem_dictionaryOf hsymbol)
      unfold FitsSigned
      omega
    have happend : Counted ⟨s.encoder.append (s.encoder.segmentOf .symbolDictionary
        s.encoder.pageNumber [] encoded.data), s.dictionaries, s.ended⟩ :=
      h.append hrefuses (by decide) rfl
    exact happend.stored rfl (Nat.lt_succ_self _) hsides
  | codeTable _ _ hrefuses => exact h.append hrefuses (by decide) rfl

/-- What a call writes isn't too large if what it is given isn't. -/
theorem small_of_effect (heffect : Effect s call s' new) (hsized : call.Sized s)
    (hdata : ∀ data ∈ call.data? s.encoder, data.size < 0xFFFFFFFF) :
    ∀ t ∈ new, t.data.size < 0xFFFFFFFF ∧ t.header.referred.length < 2 ^ 29 := by
  have hshort : ([] : List Nat).length < 2 ^ 29 := by decide
  induction heffect with
  | refused | empty | noPage => exact fun _ ht => absurd ht List.not_mem_nil
  | closed _ ih => exact ih trivial (by simp [Call.data?])
  | ended => exact List.forall_mem_singleton.mpr ⟨hdata _ rfl, hshort⟩
  | opened _ _ _ _ _ ih =>
    refine List.forall_mem_append.mpr ⟨ih trivial (by simp [Call.data?]), ?_⟩
    refine List.forall_mem_singleton.mpr ⟨?_, hshort⟩
    exact hdata _ rfl
  | generic => exact List.forall_mem_singleton.mpr ⟨hdata _ rfl, hshort⟩
  | refinement _ _ hdrew =>
    have hsize := hdata _ (Option.map_eq_some_iff.mpr ⟨_, hdrew.page, rfl⟩)
    exact List.forall_mem_singleton.mpr ⟨hsize, hshort⟩
  | text _ _ hencode =>
    have hsize := hdata _ (congrArg Except.toOption hencode)
    refine List.forall_mem_singleton.mpr ⟨hsize, ?_⟩
    exact (List.length_map _).trans_lt hsized.2.2.1.2
  | dictionary hencode =>
    have hsize := hdata _ (congrArg (fun r => r.toOption.map (·.data)) hencode)
    exact List.forall_mem_singleton.mpr ⟨hsize, hshort⟩
  | codeTable _ hwrite =>
    have hsize := hdata _ (congrArg Except.toOption hwrite)
    exact List.forall_mem_singleton.mpr ⟨hsize, hshort⟩

theorem Counted.exists_effect (h : s.Counted) (call : Call) :
    ∃ new, Effect s call (s.step call) new :=
  ⟨_, Session.effect h.numbered call⟩

end

/-! ## What was written -/

/-- The segments that a session wrote can be found again. -/
structure Legible (s : Session) (segments : List Segment) : Prop extends s.Counted where
  written : s.encoder.written = Stream.bytesOf segments
  findable : ∀ t ∈ segments, t.Findable
  kinds : ∀ t ∈ segments, t.header.kind ≠ .endOfFile

namespace Legible

variable {segments : List Segment}

theorem start {first : Nat} (h : first ≤ 0xFFFFFFFF) : (start first).Legible [] where
  toCounted := counted_start h
  written := rfl
  findable _ h := absurd h List.not_mem_nil
  kinds _ h := absurd h List.not_mem_nil

/-- What a call writes can be found again. -/
theorem effect (h : s.Legible segments) {call : Call} {new : List Segment}
    (heffect : Effect s call s' new) (hsized : call.Sized s)
    (hdata : ∀ data ∈ call.data? s.encoder, data.size < 0xFFFFFFFF) :
    s'.Legible (segments ++ new) := by
  have hadvance := heffect.advance h.numbered
  have hsmall := small_of_effect heffect hsized hdata
  refine ⟨h.toCounted.effect heffect hsized, ?_, ?_, ?_⟩
  · rw [hadvance.written, h.written, Stream.bytesOf_append]
  · refine List.forall_mem_append.mpr ⟨h.findable, fun t ht => ?_⟩
    exact (hadvance.coherent t ht).1.findable (hsmall t ht).1 (hsmall t ht).2
  · exact List.forall_mem_append.mpr ⟨h.kinds, fun t ht => (hadvance.coherent t ht).2⟩

/-- What any number of calls write can be found again. -/
theorem run (h : s.Legible segments) {calls : List Call} (hsized : s.Sized calls) :
    ∃ more, (s.run calls).Legible (segments ++ more) := by
  induction calls generalizing s segments with
  | nil => exact ⟨[], (List.append_nil segments).symm ▸ h⟩
  | cons call calls ih =>
    obtain ⟨⟨hcall, hdata⟩, hcalls⟩ := hsized
    obtain ⟨new, heffect⟩ := h.exists_effect call
    obtain ⟨more, hrun⟩ := ih (h.effect heffect hcall hdata) hcalls
    exact ⟨new ++ more, List.append_assoc segments new more ▸ hrun⟩

end Legible
end Session
end Bilevel.Encoder

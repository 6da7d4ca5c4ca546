import Bilevel.Proofs.Symbol.Link
import Bilevel.Symbol.Export

/-!
# Reading back which symbols are exported

The runs that are written for flags are read as the symbols whose flags are set. The lengths of
the runs add up to the number of symbols, so reading ends with the last run.

## Main definitions

* `Symbol.selected` — the symbols whose flags are set.

## Main results

* `Symbol.readExported_writeExported` — the exported symbols survive.
-/

namespace Bilevel.Symbol

/-- The symbols whose flags are set. -/
def selected : List Bitmap → List Bool → List Bitmap
  | symbol :: symbols, flag :: flags =>
    if flag then symbol :: selected symbols flags else selected symbols flags
  | _, _ => []

theorem selected_nil (symbols : List Bitmap) : selected symbols [] = [] := by
  cases symbols <;> rfl

theorem selected_replicate_append (symbols : List Bitmap) (run : Nat) (flag : Bool)
    (flags : List Bool) (h : run ≤ symbols.length) :
    selected symbols (List.replicate run flag ++ flags) =
      (if flag then symbols.take run else []) ++ selected (symbols.drop run) flags := by
  induction run generalizing symbols with
  | zero => simp
  | succ run ih =>
    cases symbols with
    | nil => simp at h
    | cons symbol symbols =>
      have hle : run ≤ symbols.length := by simpa using h
      rw [List.replicate_succ, List.cons_append, selected, ih symbols hle]
      cases flag <;> simp

theorem extract_eq (symbols : Array Bitmap) (index run : Nat) :
    symbols.extract index (index + run) = ((symbols.toList.drop index).take run).toArray := by
  apply Array.toList_inj.mp
  rw [Array.toList_extract, List.extract_eq_take_drop, Nat.add_sub_cancel_left]

/-- The symbols of a run come before those whose flags follow. -/
theorem append_selected_run {symbols : Array Bitmap} (exported : Array Bitmap) (exporting : Bool)
    {index run : Nat} (flags : List Bool) (h : index + run ≤ symbols.size) :
    exported ++ (selected (symbols.toList.drop index)
        (List.replicate run exporting ++ flags)).toArray =
      (exported ++ if exporting then symbols.extract index (index + run) else #[]) ++
        (selected (symbols.toList.drop (index + run)) flags).toArray := by
  have hrun : run ≤ (symbols.toList.drop index).length := by
    rw [List.length_drop, Array.length_toList]
    omega
  rw [selected_replicate_append _ _ _ _ hrun, List.drop_drop, extract_eq]
  cases exporting <;> simp

section

variable {tape : Tape} {sink sink' : Sink} {source : Source} {symbols : Array Bitmap}
  {limit : Nat}

theorem leads_writeRuns {runs : List Nat}
    (h : runs.foldlM (fun sink (run : Nat) => sink.writeValue .exportRun (some run)) sink =
      .ok sink') : sink.Leads sink' := by
  induction runs generalizing sink with
  | nil =>
    obtain rfl := Except.ok.inj h
    exact .refl sink
  | cons run runs ih =>
    rw [List.foldlM_cons] at h
    obtain ⟨sink'', hrun, hrest⟩ := bind_eq_ok.mp h
    exact (Sink.leads_writeValue hrun).trans (ih hrest)

/-- Reading one run. -/
theorem readExported_run (h : Linked tape sink source) (exporting : Bool) (index run : Nat)
    (exported : Array Bitmap) (hindex : index < symbols.size) (hrun : index + run ≤ symbols.size)
    (hmax : symbols.size ≤ 0x7FFFFFFF)
    (hw : sink.writeValue .exportRun (some run) = .ok sink') (hon : sink'.On tape) :
    ∃ source', readExported symbols (limit + 1) exporting index exported source =
        readExported symbols limit (!exporting) (index + run)
          (exported ++ if exporting then symbols.extract index (index + run) else #[]) source' ∧
      Linked tape sink' source' := by
  obtain ⟨source', hread, h'⟩ := h.readNumber (n := run) (by omega) hw hon
  refine ⟨source', ?_, h'⟩
  have htake : takeRun symbols exporting index exported run = .ok (index + run,
      exported ++ if exporting then symbols.extract index (index + run) else #[]) := by
    unfold takeRun
    rw [if_neg (by simp; omega)]
    cases exporting <;> simp
  rw [readExported, if_neg (by omega)]
  simp only [Bind.bind, StateT.bind, Except.bind, hread, htake]
  rfl

/-- Reading ends behind the last symbol. -/
theorem readExported_end {index : Nat} (hindex : symbols.size ≤ index) (exporting : Bool)
    (exported : Array Bitmap) :
    readExported symbols (limit + 1) exporting index exported source = .ok (exported, source) := by
  rw [readExported, if_pos hindex]
  rfl

/-- The runs of flags, of which the first `run` are all `exporting`, are read as the symbols whose
flags are set. -/
theorem readExported_runsOf (h : Linked tape sink source) (exporting : Bool) (index run : Nat)
    (exported : Array Bitmap) {flags : List Bool}
    (hsize : index + run + flags.length = symbols.size) (hmax : symbols.size ≤ 0x7FFFFFFF)
    (hw : (runsOf exporting run flags).foldlM
      (fun sink (run : Nat) => sink.writeValue .exportRun (some run)) sink = .ok sink')
    (hon : sink'.On tape) (hlimit : tape.limit ≤ limit + sink.spent) :
    ∃ source', readExported symbols limit exporting index exported source =
        .ok (exported ++ (selected (symbols.toList.drop index)
          (List.replicate run exporting ++ flags)).toArray, source') ∧
      Linked tape sink' source' := by
  have hspent := Sink.spent_lt_limit hon
  induction flags generalizing run exporting sink source limit index exported with
  | nil =>
    rw [List.length_nil, Nat.add_zero] at hsize
    rw [runsOf] at hw
    split at hw
    · next hzero =>
      obtain rfl := Except.ok.inj hw
      obtain ⟨limit, rfl⟩ : ∃ l, limit = l + 1 := ⟨limit - 1, by omega⟩
      refine ⟨source, ?_, h⟩
      rw [readExported_end (by omega), hzero, List.replicate_zero, List.append_nil, selected_nil]
      simp
    · next hpos =>
      rw [List.foldlM_cons] at hw
      obtain ⟨sink'', hrun, hw⟩ := bind_eq_ok.mp hw
      obtain rfl := Except.ok.inj hw
      have hlt := Sink.spent_lt_writeValue h.proper hrun
      obtain ⟨limit, rfl⟩ : ∃ l, limit = l + 1 + 1 := ⟨limit - 2, by omega⟩
      obtain ⟨source', hread, h'⟩ := readExported_run h exporting index run
        exported (by omega) (by omega) hmax hrun hon
      refine ⟨source', ?_, h'⟩
      rw [hread, readExported_end (by omega), append_selected_run _ _ _ hsize.le, selected_nil,
        Array.append_empty]
  | cons flag flags ih =>
    rw [List.length_cons] at hsize
    rw [runsOf] at hw
    split at hw
    · next hsame =>
      subst hsame
      obtain ⟨source', hread, h'⟩ := ih h flag index (run + 1) exported (by omega) hw hlimit
      refine ⟨source', ?_, h'⟩
      rw [hread, List.replicate_succ', List.append_assoc]
      rfl
    · next hdiffers =>
      rw [List.foldlM_cons] at hw
      obtain ⟨sink'', hrun, hw⟩ := bind_eq_ok.mp hw
      have hlt := Sink.spent_lt_writeValue h.proper hrun
      have hleads := leads_writeRuns hw
      have hproper := (Sink.leads_writeValue hrun).proper h.proper
      have hspent' := hleads.spent_le hproper
      obtain ⟨limit, rfl⟩ : ∃ l, limit = l + 1 := ⟨limit - 1, by omega⟩
      obtain ⟨source', hread, h'⟩ := readExported_run h exporting index run exported
        (by omega) (by omega) hmax hrun (hleads.on hproper hon)
      have hlimit' : tape.limit ≤ limit + sink''.spent := by omega
      have hflag : flag = !exporting := by
        cases flag <;> cases exporting <;> simp_all
      rw [hflag] at hw
      obtain ⟨source'', hrest, h''⟩ := ih h' (!exporting) (index + run) 1 (exported ++
        if exporting then symbols.extract index (index + run) else #[]) (by omega) hw hlimit'
      refine ⟨source'', ?_, h''⟩
      rw [hread, hrest, hflag, append_selected_run exported exporting _ (by omega)]
      rfl

/-- The symbols whose flags are set are exported. -/
theorem readExported_writeExported (h : Linked tape sink source) {flags : List Bool}
    (hsize : flags.length = symbols.size) (hmax : symbols.size ≤ 0x7FFFFFFF)
    (hw : writeExported flags sink = .ok sink') (hon : sink'.On tape)
    (hlimit : tape.limit ≤ limit + sink.spent) :
    ∃ source', readExported symbols limit false 0 #[] source =
        .ok ((selected symbols.toList flags).toArray, source') ∧ Linked tape sink' source' := by
  obtain ⟨source', hread, h'⟩ := readExported_runsOf h false 0 0 #[] (by omega) hmax hw hon
    hlimit
  refine ⟨source', ?_, h'⟩
  simpa using hread

end

end Bilevel.Symbol

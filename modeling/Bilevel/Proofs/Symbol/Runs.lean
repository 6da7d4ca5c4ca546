import Bilevel.Proofs.Symbol.Export
import Bilevel.Proofs.Symbol.Termination
import Mathlib.Algebra.Order.BigOperators.Group.List
import Mathlib.Algebra.Order.Ring.Int

/-!
# Runs of exported symbols

The symbols that a dictionary exports are read as runs of any length, none included. Runs that are
read without a failure come to the number of all symbols, and no run but the last one does before.
The symbols in every other run are exported.

## Main definitions

* `Symbol.readAnnounced` — read the exported symbols, of which there have to be a given number.
* `Source.ReadsRuns` — runs are read one after another.
* `Symbol.Covers`, `Symbol.InExportedRun` — what runs have to come to, and the places in every
  other run.

## Main results

* `Symbol.readExported_eq_ok` — what is read from any place on.
* `Symbol.readAnnounced_exact` — the exported symbols are those in every other run, and the runs of
  flags are read as the symbols whose flags are set.
-/

namespace Bilevel

/-- Runs are read one after another. -/
inductive Source.ReadsRuns : Source → List Int → Source → Prop
  | nil (s : Source) : ReadsRuns s [] s
  | cons {s s' s'' : Source} {run : Int} {runs : List Int}
    (h : Source.readNumber .exportRun s = .ok (run, s')) (h' : ReadsRuns s' runs s'') :
    ReadsRuns s (run :: runs) s''

/-- Every run takes something, so there are no more runs than the source has left. -/
theorem Source.ReadsRuns.length_le {s s' : Source} {runs : List Int} (h : s.ReadsRuns runs s')
    (hs : s.Sound) :
    runs.length + s'.left ≤ s.left := by
  induction h with
  | nil => simp
  | cons hrun _ ih =>
    have hspent := Source.spends_readNumber hs hrun
    have hlt := hspent.left_lt hs
    have hle := ih (hspent.sound hs)
    rw [List.length_cons]
    omega

namespace Symbol

/-! ## Flags -/

/-- The flags that runs stand for. -/
def runFlags : (exporting : Bool) → List Int → List Bool
  | _, [] => []
  | exporting, run :: runs => List.replicate run.toNat exporting ++ runFlags (!exporting) runs

/-- Runs come to `total`, and none of them starts there. -/
structure Covers (total : Nat) (runs : List Int) : Prop where
  nonneg : ∀ run ∈ runs, 0 ≤ run
  before : ∀ k < runs.length, (runs.take k).sum < total
  total_eq : runs.sum = total

/-- The place `i` is in the second run, in the fourth, and so on. -/
def InExportedRun (runs : List Int) (i : Nat) : Prop :=
  ∃ k < runs.length, k % 2 = 1 ∧ (runs.take k).sum ≤ i ∧ i < (runs.take (k + 1)).sum

instance (runs : List Int) (i : Nat) : Decidable (InExportedRun runs i) :=
  inferInstanceAs (Decidable (∃ k < runs.length, _))

theorem covers_nil {total : Nat} : Covers total [] ↔ total = 0 := by
  refine ⟨fun h => ?_, ?_⟩
  · have := h.total_eq
    simp at this
    omega
  · rintro rfl
    exact ⟨by simp, by simp, rfl⟩

/-- Behind its first run, runs come to what the first one leaves. -/
theorem covers_cons {total : Nat} {run : Int} {runs : List Int} :
    Covers total (run :: runs) ↔
      0 < total ∧ ∃ n : Nat, run = n ∧ n ≤ total ∧ Covers (total - n) runs := by
  constructor
  · intro h
    have hrun := h.nonneg run List.mem_cons_self
    have hrest : ∀ r ∈ runs, 0 ≤ r := fun r hr => h.nonneg r (List.mem_cons_of_mem _ hr)
    have hsum := h.total_eq
    rw [List.sum_cons] at hsum
    have hle : 0 ≤ runs.sum := List.sum_nonneg hrest
    have hpos := h.before 0 (by simp)
    simp only [List.take_zero, List.sum_nil] at hpos
    refine ⟨by omega, run.toNat, by omega, by omega, hrest, fun k hk => ?_, by omega⟩
    have := h.before (k + 1) (by simpa using hk)
    rw [List.take_succ_cons, List.sum_cons] at this
    omega
  · rintro ⟨hpos, n, rfl, hn, hnonneg, hbefore, htotal⟩
    refine ⟨by simpa using hnonneg, fun k hk => ?_, by rw [List.sum_cons]; omega⟩
    cases k with
    | zero => simpa using hpos
    | succ k =>
      have := hbefore k (by simpa using hk)
      rw [List.take_succ_cons, List.sum_cons]
      omega

theorem length_runFlags {total : Nat} {runs : List Int} (h : Covers total runs) (exporting : Bool) :
    (runFlags exporting runs).length = total := by
  induction runs generalizing total exporting with
  | nil => exact (covers_nil.mp h).symm
  | cons run runs ih =>
    obtain ⟨-, n, rfl, hn, hrest⟩ := covers_cons.mp h
    rw [runFlags, List.length_append, List.length_replicate, ih hrest, Int.toNat_natCast]
    omega

/-- The flags that are set are those in every other run. -/
theorem getElem?_runFlags {total : Nat} {runs : List Int} (h : Covers total runs) (exporting : Bool)
    (i : Nat) :
    (runFlags exporting runs)[i]? = some true ↔
      ∃ k < runs.length, k % 2 = (if exporting then 0 else 1) ∧ (runs.take k).sum ≤ i ∧
        i < (runs.take (k + 1)).sum := by
  induction runs generalizing total exporting i with
  | nil => simp [runFlags]
  | cons run runs ih =>
    obtain ⟨-, n, rfl, hn, hrest⟩ := covers_cons.mp h
    rw [runFlags, Int.toNat_natCast, List.getElem?_append, List.length_replicate]
    rw [List.length_cons, Nat.exists_lt_succ_left]
    simp only [List.take_succ_cons, List.sum_cons, List.take_zero, List.sum_nil, Int.add_zero]
    by_cases hi : i < n
    · -- no later run starts before the first one ends
      have hlater : ¬∃ k < runs.length, (k + 1) % 2 = (if exporting then 0 else 1) ∧
          n + (runs.take k).sum ≤ i ∧ i < n + (runs.take (k + 1)).sum := by
        rintro ⟨k, -, -, hle, -⟩
        have hsum : 0 ≤ (runs.take k).sum :=
          List.sum_nonneg fun r hr => hrest.nonneg r (List.mem_of_mem_take hr)
        omega
      rw [if_pos hi, List.getElem?_replicate, if_pos hi, or_iff_left hlater]
      cases exporting <;> simp [hi]
    · have hparity : ∀ k : Nat, (k + 1) % 2 = (if exporting then 0 else 1) ↔
          k % 2 = if (!exporting) then 0 else 1 := by
        cases exporting <;> simp <;> omega
      rw [if_neg hi, ih hrest, or_iff_right fun h => hi (by omega)]
      refine exists_congr fun k => and_congr_right fun _ => ?_
      rw [hparity]
      omega

/-! ## Runs of flags -/

theorem runFlags_runsOf (current : Bool) (run : Nat) (flags : List Bool) :
    runFlags current ((runsOf current run flags).map Nat.cast) =
      List.replicate run current ++ flags := by
  induction flags generalizing current run with
  | nil =>
    rw [runsOf]
    split
    · next hzero => simp [hzero, runFlags]
    · simp [runFlags]
  | cons flag flags ih =>
    rw [runsOf]
    split
    · next hsame => rw [ih, hsame, List.replicate_succ', List.append_assoc, List.singleton_append]
    · next hdiffers =>
      have hflag : (!current) = flag := by
        cases flag <;> cases current <;> simp_all
      rw [List.map_cons, runFlags, hflag, ih, Int.toNat_natCast]
      rfl

theorem covers_runsOf (current : Bool) (run : Nat) (flags : List Bool) :
    Covers (run + flags.length) ((runsOf current run flags).map Nat.cast) := by
  induction flags generalizing current run with
  | nil =>
    rw [runsOf]
    split
    · next hzero => exact covers_nil.mpr hzero
    · next hpos =>
      exact covers_cons.mpr ⟨Nat.pos_of_ne_zero hpos, run, rfl, Nat.le_refl _,
        covers_nil.mpr (Nat.sub_self _)⟩
  | cons flag flags ih =>
    rw [runsOf, List.length_cons]
    split
    · have hsize : run + (flags.length + 1) = run + 1 + flags.length := by omega
      rw [hsize]
      exact ih current (run + 1)
    · refine covers_cons.mpr ⟨by omega, run, rfl, by omega, ?_⟩
      have hleft : run + (flags.length + 1) - run = 1 + flags.length := by omega
      rw [hleft]
      exact ih flag 1

/-- Runs of flags stand for the flags. -/
theorem runFlags_exportRuns (flags : List Bool) :
    runFlags false ((exportRuns flags).map Nat.cast) = flags :=
  runFlags_runsOf false 0 flags

theorem covers_exportRuns (flags : List Bool) :
    Covers flags.length ((exportRuns flags).map Nat.cast) := by
  have h := covers_runsOf false 0 flags
  rwa [Nat.zero_add] at h

theorem Covers.le {total : Nat} {runs : List Int} (h : Covers total runs) :
    ∀ run ∈ runs, run ≤ total :=
  fun run hrun => h.total_eq ▸ List.single_le_sum h.nonneg run hrun

/-! ## Selected symbols -/

/-- The places of the flags that are set, from the first one on. -/
def setPlaces (flags : List Bool) : List Nat :=
  (List.range flags.length).filter fun i => flags[i]? = some true

theorem setPlaces_cons (flag : Bool) (flags : List Bool) :
    setPlaces (flag :: flags) =
      (if flag then [0] else []) ++ (setPlaces flags).map Nat.succ := by
  unfold setPlaces
  rw [List.length_cons, List.range_succ_eq_map, List.filter_cons, List.filter_map]
  cases flag <;> simp [Function.comp_def]

theorem length_setPlaces (flags : List Bool) : (setPlaces flags).length = flags.count true := by
  induction flags with
  | nil => rfl
  | cons flag flags ih =>
    rw [setPlaces_cons, List.length_append, List.length_map, ih]
    cases flag <;> simp [Nat.add_comm]

/-- The selected symbols are those whose flags are set, in order. -/
theorem map_selected {symbols : List Bitmap} {flags : List Bool}
    (h : flags.length = symbols.length) :
    (selected symbols flags).map some = (setPlaces flags).map (symbols[·]?) := by
  induction flags generalizing symbols with
  | nil => rw [selected_nil]; rfl
  | cons flag flags ih =>
    cases symbols with
    | nil => simp at h
    | cons symbol symbols =>
      have hlength : flags.length = symbols.length := by simpa using h
      have ih := ih hlength
      rw [selected, setPlaces_cons, List.map_append, List.map_map]
      cases flag
      · simpa [Function.comp_def] using ih
      · simpa [Function.comp_def] using ih

/-! ## Reading -/

theorem takeRun_eq_ok {symbols exported exported' : Array Bitmap} {exporting : Bool}
    {index index' : Nat} {run : Int} :
    takeRun symbols exporting index exported run = .ok (index', exported') ↔
      ∃ n : Nat, run = n ∧ index + n ≤ symbols.size ∧ index' = index + n ∧
        exported' = exported ++ if exporting then symbols.extract index (index + n) else #[] := by
  unfold takeRun
  split
  · next hbad =>
    refine ⟨fun h => (by cases h), ?_⟩
    rintro ⟨n, rfl, hn, -⟩
    omega
  · next hgood =>
    have hrun : (run.toNat : Int) = run := Int.toNat_of_nonneg (by omega)
    constructor
    · intro h
      cases h
      refine ⟨run.toNat, hrun.symm, by omega, rfl, ?_⟩
      cases exporting <;> simp
    · rintro ⟨n, rfl, -, rfl, rfl⟩
      rw [Int.toNat_natCast]
      cases exporting <;> simp

/-- The symbols that a run and those behind it set. -/
theorem selected_runFlags_cons {symbols : Array Bitmap} {index n : Nat}
    (hn : index + n ≤ symbols.size) (exporting : Bool) (runs : List Int) :
    (selected (symbols.toList.drop index) (runFlags exporting (n :: runs))).toArray =
      (if exporting then symbols.extract index (index + n) else #[]) ++
        (selected (symbols.toList.drop (index + n)) (runFlags (!exporting) runs)).toArray := by
  have hle : n ≤ (symbols.toList.drop index).length := by
    rw [List.length_drop, Array.length_toList]
    omega
  rw [runFlags, Int.toNat_natCast, selected_replicate_append _ _ _ _ hle, List.drop_drop,
    extract_eq]
  cases exporting <;> simp

/-- From `index` on, runs are read until they come to the number of all symbols, and the symbols
whose flags they set are exported behind those that were before. -/
theorem readExported_eq_ok {symbols exported result : Array Bitmap} {limit index : Nat}
    {exporting : Bool} {s s' : Source} (hindex : index ≤ symbols.size) :
    readExported symbols limit exporting index exported s = .ok (result, s') ↔
      ∃ runs, runs.length < limit ∧ s.ReadsRuns runs s' ∧ Covers (symbols.size - index) runs ∧
        result = exported ++
          (selected (symbols.toList.drop index) (runFlags exporting runs)).toArray := by
  induction limit generalizing index exported exporting s with
  | zero => exact ⟨fun h => (by cases h), fun ⟨_, hlt, _⟩ => absurd hlt (Nat.not_lt_zero _)⟩
  | succ limit ih =>
    rw [readExported]
    split
    · next hend =>
      have hzero : symbols.size - index = 0 := Nat.sub_eq_zero_of_le hend
      rw [hzero]
      constructor
      · intro h
        cases h
        exact ⟨[], Nat.succ_pos _, .nil _, covers_nil.mpr rfl, by simp [runFlags, selected_nil]⟩
      · rintro ⟨runs, -, hreads, hcovers, rfl⟩
        cases hreads with
        | nil => simp [runFlags, selected_nil, run_pure]
        | cons => exact absurd (covers_cons.mp hcovers).1 (Nat.lt_irrefl 0)
    · next hmore =>
      constructor
      · intro h
        obtain ⟨run, s₁, hrun, h⟩ := run_bind_eq_ok.mp h
        obtain ⟨⟨index', exported'⟩, s₂, hlift, h⟩ := run_bind_eq_ok.mp h
        obtain ⟨htake, rfl⟩ := run_lift_eq_ok.mp hlift
        obtain ⟨n, rfl, hn, rfl, rfl⟩ := takeRun_eq_ok.mp htake
        obtain ⟨runs, hlength, hreads, hcovers, rfl⟩ := (ih hn).mp h
        refine ⟨n :: runs, Nat.succ_lt_succ hlength, .cons hrun hreads,
          covers_cons.mpr ⟨by omega, n, rfl, by omega, by rwa [Nat.sub_sub]⟩, ?_⟩
        rw [selected_runFlags_cons hn, Array.append_assoc]
      · rintro ⟨runs, hlength, hreads, hcovers, rfl⟩
        cases hreads with
        | nil => exact absurd (covers_nil.mp hcovers) (by omega)
        | @cons _ s₁ _ run runs hrun hreads =>
          obtain ⟨-, n, rfl, hn, hrest⟩ := covers_cons.mp hcovers
          have hle : index + n ≤ symbols.size := by omega
          rw [Nat.sub_sub] at hrest
          rw [run_bind_ok hrun, run_bind_lift (takeRun_eq_ok.mpr ⟨n, rfl, hle, rfl, rfl⟩)]
          refine (ih hle).mpr ⟨runs, Nat.lt_of_succ_lt_succ hlength, hreads, hrest, ?_⟩
          rw [selected_runFlags_cons hle, Array.append_assoc]

/-! ## Announced symbols -/

/-- Read the exported symbols, of which there have to be `count`. -/
def readAnnounced (symbols : Array Bitmap) (count limit : Nat) : Decoding (Array Bitmap) := do
  let exported ← readExported symbols limit false 0 #[]
  if exported.size ≠ count then throw (.malformed .exportCountMismatch)
  return exported

/-- The symbols of a dictionary are read before the exported ones. -/
theorem readSymbols_eq (settings : DecodeSettings) (header : Header) (input : Array Bitmap)
    (limit : Nat) :
    readSymbols settings header input limit =
      readClasses settings header.style (input.size + header.newCount) limit 0 input >>=
        fun symbols => readAnnounced symbols header.exportedCount limit := rfl

/-- When the exported symbols are read, the bound for the runs isn't in reach. -/
theorem sound_of_readClasses {settings : DecodeSettings} {data : Bytes} {input : Array Bitmap}
    {tables : List Huffman.Table} {last : Option (Nat × SymbolDictionary)}
    (htables : ∀ t ∈ tables, t.Built) {header : Header} {s s' : Source} {symbols : Array Bitmap}
    (h : start settings data input tables last = .ok (header, s))
    (hread : readClasses settings header.style (input.size + header.newCount) (valueLimit s) 0 input
      s = .ok (symbols, s')) :
    s'.Sound ∧ s'.left < valueLimit s := by
  have hs := sound_start htables h
  have hspends := (madeOf_readClasses settings header.style _ _ _ _).spends hread
  exact ⟨hspends.sound hs, (hspends.left_le hs).trans_lt s.left_lt_valueLimit⟩

/-- Exported symbols are read just when the runs come to the number of all symbols and set as many
flags as are announced. -/
theorem readAnnounced_eq_ok {symbols exported : Array Bitmap} {count limit : Nat} {s s' : Source}
    (hs : s.Sound) (hlimit : s.left < limit) :
    readAnnounced symbols count limit s = .ok (exported, s') ↔
      ∃ runs, s.ReadsRuns runs s' ∧ Covers symbols.size runs ∧
        (setPlaces (runFlags false runs)).length = count ∧
        exported.toList.map some = (setPlaces (runFlags false runs)).map (symbols[·]?) := by
  have hexported : ∀ result, readExported symbols limit false 0 #[] s = .ok (result, s') ↔
      ∃ runs, s.ReadsRuns runs s' ∧ Covers symbols.size runs ∧
        result = (selected symbols.toList (runFlags false runs)).toArray := by
    intro result
    rw [readExported_eq_ok (Nat.zero_le _)]
    refine exists_congr fun runs => ⟨fun ⟨_, h⟩ => by simpa using h, fun h => ?_⟩
    refine ⟨?_, by simpa using h⟩
    have := h.1.length_le hs
    omega
  have hplaces {runs : List Int} (h : Covers symbols.size runs) :
      (selected symbols.toList (runFlags false runs)).map some =
        (setPlaces (runFlags false runs)).map (symbols[·]?) := by
    rw [map_selected (by rw [length_runFlags h, Array.length_toList])]
    simp
  constructor
  · intro h
    obtain ⟨result, s₁, hread, h⟩ := run_bind_eq_ok.mp h
    split at h
    · cases h
    · next hcount =>
      cases h
      obtain ⟨runs, hreads, hcovers, rfl⟩ := (hexported _).mp hread
      have hmap := hplaces hcovers
      refine ⟨runs, hreads, hcovers, ?_, hmap⟩
      rw [← Decidable.not_not.mp hcount, ← List.length_map, ← hmap, List.length_map]
      rfl
  · rintro ⟨runs, hreads, hcovers, hcount, hmap⟩
    have hlist : exported.toList = selected symbols.toList (runFlags false runs) :=
      List.map_injective_iff.mpr (Option.some_injective _) (hmap.trans (hplaces hcovers).symm)
    have hread := (hexported exported).mpr ⟨runs, hreads, hcovers, by rw [← hlist]⟩
    have hsize : exported.size = count := by
      rw [← hcount, ← List.length_map, ← hmap, List.length_map, Array.length_toList]
    rw [readAnnounced, run_bind_ok hread, if_neg (by simp [hsize])]
    rfl

/-- The places whose flags are set are those in every other run. -/
theorem setPlaces_runFlags {total : Nat} {runs : List Int} (h : Covers total runs) :
    setPlaces (runFlags false runs) = (List.range total).filter (InExportedRun runs ·) := by
  unfold setPlaces
  rw [length_runFlags h]
  refine List.filter_congr fun i _ => decide_eq_decide.mpr ?_
  exact getElem?_runFlags h false i

/-- The symbol at a place among those of other dictionaries and the new ones behind them. -/
def symbolAt (input new : Array Bitmap) (i : Nat) : Option Bitmap :=
  if i < input.size then input[i]? else new[i - input.size]?

theorem symbolAt_eq (input new : Array Bitmap) (i : Nat) :
    (input ++ new)[i]? = symbolAt input new i := Array.getElem?_append

/-- Runs that were written are read. -/
theorem exists_readsRuns {tape : Tape} {sink sink' : Sink} {s : Source} (h : Linked tape sink s)
    {runs : List Nat} (hruns : ∀ run ∈ runs, run ≤ 0x7FFFFFFF)
    (hw : runs.foldlM (fun sink (run : Nat) => sink.writeValue .exportRun (some run)) sink =
      .ok sink') (hon : sink'.On tape) :
    ∃ s', s.ReadsRuns (runs.map Nat.cast) s' ∧ Linked tape sink' s' := by
  induction runs generalizing sink s with
  | nil =>
    cases hw
    exact ⟨s, .nil s, h⟩
  | cons run runs ih =>
    rw [List.foldlM_cons] at hw
    obtain ⟨sink'', hrun, hw⟩ := bind_eq_ok.mp hw
    have hproper := (Sink.leads_writeValue hrun).proper h.proper
    have hmax := hruns run List.mem_cons_self
    obtain ⟨s₁, hread, h₁⟩ := h.readNumber (n := run) (by omega) hrun
      ((leads_writeRuns hw).on hproper hon)
    obtain ⟨s', hreads, h'⟩ := ih h₁ (fun r hr => hruns r (List.mem_cons_of_mem _ hr)) hw
    exact ⟨s', .cons hread hreads, h'⟩

/-- The exported symbols are read just when no run is negative, the runs come to the number of all
symbols, none of them starts there or goes beyond, and there are as many symbols in every other run
as are announced; then they are the symbols in these runs, in order. So the runs of flags are read
as the symbols whose flags are set, and the runs of fewer than `2 ^ 31` flags fit signed numbers and
can be read wherever they were written. -/
theorem readAnnounced_exact (input new : Array Bitmap) {limit : Nat} {s : Source} (hs : s.Sound)
    (hlimit : s.left < limit) :
    (∀ count exported s', readAnnounced (input ++ new) count limit s = .ok (exported, s') ↔
      ∃ runs places, s.ReadsRuns runs s' ∧ Covers (input.size + new.size) runs ∧
        places = (List.range (input.size + new.size)).filter (InExportedRun runs ·) ∧
        places.length = count ∧
        exported.toList.map some = places.map (symbolAt input new)) ∧
    ∀ flags : List Bool, flags.length = input.size + new.size →
      (∀ s', s.ReadsRuns ((exportRuns flags).map Nat.cast) s' →
        ∃ exported, readAnnounced (input ++ new) (flags.count true) limit s = .ok (exported, s') ∧
          exported.toList.map some =
            ((List.range flags.length).filter (flags[·]? = some true)).map
              (symbolAt input new)) ∧
      (flags.length < 2 ^ 31 → (∀ run ∈ exportRuns flags, run < 2 ^ 31) ∧
        ∀ tape sink sink', Linked tape sink s → writeExported flags sink = .ok sink' →
          sink'.On tape → ∃ s', s.ReadsRuns ((exportRuns flags).map Nat.cast) s') := by
  have hread := @readAnnounced_eq_ok (input ++ new)
  simp only [Array.size_append, symbolAt_eq] at hread
  refine ⟨fun count exported s' => ?_, fun flags hsize => ⟨fun s' hreads => ?_, fun hmax => ?_⟩⟩
  · rw [hread hs hlimit]
    constructor
    · rintro ⟨runs, hreads, hcovers, hcount, hmap⟩
      exact ⟨runs, _, hreads, hcovers, setPlaces_runFlags hcovers, hcount, hmap⟩
    · rintro ⟨runs, places, hreads, hcovers, rfl, hcount, hmap⟩
      rw [← setPlaces_runFlags hcovers] at hcount hmap
      exact ⟨runs, hreads, hcovers, hcount, hmap⟩
  · have hcovers := covers_exportRuns flags
    rw [hsize] at hcovers
    have hlength : flags.length = (input ++ new).toList.length := by simpa using hsize
    have hmap := map_selected hlength
    simp only [Array.getElem?_toList, symbolAt_eq] at hmap
    refine ⟨(selected (input ++ new).toList flags).toArray, ?_, hmap⟩
    refine (hread hs hlimit).mpr ⟨_, hreads, hcovers, ?_, ?_⟩
    · rw [runFlags_exportRuns, length_setPlaces]
    · rw [runFlags_exportRuns]
      exact hmap
  · have hruns : ∀ run ∈ exportRuns flags, run ≤ flags.length := fun run hrun => by
      exact_mod_cast (covers_exportRuns flags).le run (List.mem_map_of_mem hrun)
    refine ⟨fun run hrun => (hruns run hrun).trans_lt hmax, fun tape sink sink' h hw hon => ?_⟩
    obtain ⟨s', hreads, -⟩ := exists_readsRuns h
      (fun run hrun => Nat.le_of_lt_succ ((hruns run hrun).trans_lt hmax)) hw hon
    exact ⟨s', hreads⟩

/-- The flags of two symbols of another dictionary and of a new one behind them. No symbol is in
front of the first one whose flag is set. -/
theorem readAnnounced_exact_seam :
    let table : Huffman.Table := ⟨[⟨⟨1, .values 0 2⟩, 0⟩], .node (.leaf (.values 0 2)) .empty⟩
    let source (position : Nat) : Source :=
      .codes ⟨#[0x04, 0x90], position⟩ (fun _ => table) (.fixed 0)
    (source 0).Sound ∧ (source 0).left < 17 ∧
      (source 0).ReadsRuns [0, 1, 1, 1] (source 12) ∧
      ∃ exported,
        readAnnounced (#[.filled 1 1 true, .blank 2 1] ++ #[.filled 3 1 true]) 2 17 (source 0) =
          .ok (exported, source 12) ∧
        exported.toList.map some = [some (.filled 1 1 true), some (.filled 3 1 true)] := by
  intro table source
  have hbuilt : table.Built := ⟨[⟨1, .values 0 2⟩], by decide +kernel⟩
  have hs : (source 0).Sound := ⟨by decide, fun _ => hbuilt⟩
  have hleft : (source 0).left < 17 := by decide
  have hread : ∀ p n : Nat, (p, n) ∈ [(0, 0), (3, 1), (6, 1), (9, 1)] →
      Source.readNumber .exportRun (source p) = .ok ((n : Int), source (p + 3)) := by
    rintro p n (_ | ⟨_, _ | ⟨_, _ | ⟨_, _ | ⟨_, h⟩⟩⟩⟩)
    all_goals first | rfl | cases h
  have hreads : (source 0).ReadsRuns [0, 1, 1, 1] (source 12) :=
    .cons (hread 0 0 (by simp)) (.cons (hread 3 1 (by simp))
      (.cons (hread 6 1 (by simp)) (.cons (hread 9 1 (by simp)) (.nil _))))
  obtain ⟨exported, hexported, hmap⟩ := ((readAnnounced_exact #[.filled 1 1 true, .blank 2 1]
    #[.filled 3 1 true] hs hleft).2 [true, false, true] rfl).1 (source 12) hreads
  exact ⟨hs, hleft, hreads, exported, hexported, hmap⟩

end Symbol
end Bilevel

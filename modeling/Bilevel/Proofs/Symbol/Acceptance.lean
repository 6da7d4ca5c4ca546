import Bilevel.Proofs.Huffman.Coverage
import Bilevel.Proofs.StableSort
import Bilevel.Proofs.Symbol.Dictionary

/-!
# Dictionaries that can be written

Decisions stand for every number, but the Huffman tables with which dictionaries are written have no
code word for heights that don't grow and for widths that shrink. As symbols are sorted by height
and then by width, none is needed: heights grow from class to class, and within a class no width is
less than the one before.

## Main definitions

* `Symbol.TakesSymbols` — sinks to which sorted symbols can be written.
* `Symbol.Rising` — classes whose heights grow.

## Main results

* `Symbol.stablySorted_order` — the order of the symbols is the stable one by height and width.
* `Symbol.rising_classesOf` — the heights of the classes of sorted symbols grow.
* `Symbol.exists_encode` — dictionaries of symbols that can be read back are written.
-/

namespace Bilevel

open Mq

namespace Symbol

/-! ## The order of symbols -/

/-- The height of a symbol, and among symbols of one height its width. -/
def sizeKey (symbol : Bitmap) : ℕ ×ₗ ℕ := toLex (symbol.height, symbol.width)

theorem comesBefore_iff (a b : Bitmap) : comesBefore a b = true ↔ sizeKey a ≤ sizeKey b := by
  simp [comesBefore, sizeKey, Prod.Lex.toLex_le_toLex]

/-- The size of the symbol at a place of a list. -/
def sizeAt (symbols : List Bitmap) (i : Nat) : ℕ ×ₗ ℕ := sizeKey (symbols.getD i (.blank 0 0))

theorem stablySorted_orderOf (symbols : List Bitmap) :
    StablySorted (fun p => sizeKey p.1) symbols.zipIdx (orderOf symbols) :=
  stablySorted_mergeSort (fun a b => comesBefore_iff a.1 b.1) symbols.zipIdx

/-- Symbols are written in the order of their sizes, and those of one size as they were given. -/
theorem stablySorted_order (symbols : List Bitmap) :
    StablySorted (sizeAt symbols) (List.range symbols.length) ((orderOf symbols).map (·.2)) := by
  rw [List.range_eq_range', ← List.zipIdx_map_snd]
  refine (stablySorted_orderOf symbols).map fun p hp => ?_
  rw [sizeAt, List.getD_eq_getElem?_getD, List.mem_zipIdx_iff_getElem?.mp hp, Option.getD_some]

theorem pairwise_orderOf (symbols : List Bitmap) :
    ((orderOf symbols).map (·.1)).Pairwise fun a b => sizeKey a ≤ sizeKey b :=
  List.pairwise_map.mpr (stablySorted_orderOf symbols).ascending

/-! ## Classes of sorted symbols -/

/-- Classes whose heights grow from a given one on. -/
def Rising (height : Nat) : List (List Bitmap) → Prop
  | [] => True
  | [] :: rest => Rising height rest
  | (first :: _) :: rest => height < first.height ∧ Rising first.height rest

theorem height_le_of_sizeKey_le {a b : Bitmap} (h : sizeKey a ≤ sizeKey b) :
    a.height ≤ b.height := by
  rcases Prod.Lex.toLex_le_toLex.mp h with hlt | ⟨heq, -⟩
  · exact hlt.le
  · exact heq.le

theorem width_le_of_sizeKey_le {a b : Bitmap} (h : sizeKey a ≤ sizeKey b)
    (hheight : a.height = b.height) : a.width ≤ b.width := by
  rcases Prod.Lex.toLex_le_toLex.mp h with hlt | ⟨-, hle⟩
  · exact absurd hheight hlt.ne
  · exact hle

/-- The heights of the classes of sorted symbols grow. -/
theorem rising_classesOf {symbols : List Bitmap}
    (hsorted : symbols.Pairwise fun a b => sizeKey a ≤ sizeKey b) {height : Nat}
    (hheight : ∀ s ∈ symbols, height < s.height) : Rising height (classesOf symbols) := by
  induction symbols generalizing height with
  | nil => trivial
  | cons symbol symbols ih =>
    obtain ⟨hfirst, hrest⟩ := List.pairwise_cons.mp hsorted
    obtain ⟨hflatten, hclasses⟩ := classesOf_spec symbols
    have hsymbol := hheight symbol List.mem_cons_self
    have ih₀ := ih hrest fun s hs => hheight s (List.mem_cons_of_mem symbol hs)
    unfold classesOf
    split
    · next next others classes heq =>
      rw [heq] at hflatten ih₀ ih
      split
      · next hsame => exact ⟨hsymbol, hsame ▸ ih₀.2⟩
      · next hother =>
        refine ⟨hsymbol, ih hrest fun s hs => ?_⟩
        -- the next symbol is higher than this one, and no symbol behind it is less high
        have hnext : symbol.height < next.height := by
          refine lt_of_le_of_ne (height_le_of_sizeKey_le (hfirst next ?_)) hother
          exact hflatten ▸ List.mem_cons_self
        refine hnext.trans_le ?_
        rw [← hflatten] at hs hrest
        rcases List.mem_cons.mp hs with rfl | hs
        · exact le_rfl
        · exact height_le_of_sizeKey_le (List.rel_of_pairwise_cons hrest hs)
    · next hnone =>
      refine ⟨hsymbol, ?_⟩
      cases hcases : classesOf symbols with
      | nil => trivial
      | cons c classes =>
        obtain ⟨next, others, rfl, -⟩ := hclasses c (hcases ▸ List.mem_cons_self)
        exact absurd hcases (hnone next others classes)

/-- The widths of the symbols of a class don't shrink. -/
theorem pairwise_width_of_mem_classesOf {symbols c : List Bitmap}
    (hsorted : symbols.Pairwise fun a b => sizeKey a ≤ sizeKey b) (hc : c ∈ classesOf symbols) :
    (c.map (·.width)).Pairwise (· ≤ ·) := by
  obtain ⟨hflatten, hclasses⟩ := classesOf_spec symbols
  obtain ⟨first, others, -, hheight⟩ := hclasses c hc
  have hsub : c.Sublist symbols := hflatten ▸ List.sublist_flatten_of_mem hc
  refine List.pairwise_map.mpr ((hsorted.sublist hsub).imp_of_mem fun ha hb hle => ?_)
  exact width_le_of_sizeKey_le hle ((hheight _ ha).trans (hheight _ hb).symm)

/-! ## Writing -/

/-- A sink to which sorted symbols can be written. -/
structure TakesSymbols (s : Sink) : Prop where
  height : ∀ n : Int, 0 < n → s.Takes .deltaHeight (some n)
  width : ∀ n : Int, 0 ≤ n → s.Takes .deltaWidth (some n)
  classEnd : s.Takes .deltaWidth none
  size : s.Takes .collectiveSize (some 0)
  run : ∀ n : Int, 0 ≤ n → s.Takes .exportRun (some n)

theorem TakesSymbols.leads {s s' : Sink} (h : TakesSymbols s) (hleads : s.Leads s') :
    TakesSymbols s' where
  height n hn := hleads.takes (h.height n hn)
  width n hn := hleads.takes (h.width n hn)
  classEnd := hleads.takes h.classEnd
  size := hleads.takes h.size
  run n hn := hleads.takes (h.run n hn)

open Huffman in
/-- The tables with which dictionaries are written have code words for sorted symbols. -/
theorem exists_sinkFor (coding : Coding) (w : Writer) :
    ∃ s, sinkFor coding w = .ok s ∧ TakesSymbols s := by
  cases coding with
  | decisions template =>
    exact ⟨_, rfl, fun _ _ => trivial, fun _ _ => trivial, trivial, trivial, fun _ _ => trivial⟩
  | codes =>
    obtain ⟨tables, htables, -, ⟨hheight, hwidth⟩, hsize, hrun⟩ := exists_resolve_standardSelections
    change Table.build Standard.tableD = .ok (tables .deltaHeight) at hheight
    change Table.build Standard.tableB = .ok (tables .deltaWidth) at hwidth
    change Table.build Standard.tableA = .ok (tables .collectiveSize) at hsize
    change Table.build Standard.tableA = .ok (tables .exportRun) at hrun
    have hend : ∃ line ∈ Standard.tableB, line.used = true ∧ line.range.Holds none :=
      ⟨⟨6, .outOfBand⟩, by decide, rfl, rfl⟩
    refine ⟨.codes w tables, by simp only [sinkFor, htables], ?_⟩
    exact {
      height _ hn := Table.exists_encode_of_reachesFrom hheight (by decide) hn
      width _ hn := Table.exists_encode_of_reachesFrom hwidth (by decide) hn
      classEnd w := (Table.exists_encode_iff hwidth w none).mpr hend
      size := Table.exists_encode_of_reachesFrom hsize (by decide) le_rfl
      run _ hn := Table.exists_encode_of_reachesFrom hrun (by decide) hn }

variable {s : Sink} (params : GenericParams)

/-- Widths that don't shrink are written. -/
theorem exists_writeWidths (h : TakesSymbols s) {symbols : List Bitmap} {width : Nat}
    (hwidths : (width :: symbols.map (·.width)).Pairwise (· ≤ ·))
    (hsize : ∀ symbol ∈ symbols, symbol.width ≤ 0x40000000) :
    ∃ s', writeWidths params symbols width s = .ok s' := by
  induction symbols generalizing s width with
  | nil => exact h.classEnd.exists_writeValue
  | cons symbol symbols ih =>
    obtain ⟨hle, hrest⟩ := List.pairwise_cons.mp hwidths
    have hwidth : width ≤ symbol.width := hle _ List.mem_cons_self
    have hsymbol := hsize symbol List.mem_cons_self
    obtain ⟨s₁, h₁⟩ := (h.width ((symbol.width : Int) - width) (by omega)).exists_writeNumber
      (by unfold FitsSigned; omega)
    have hleads := (Sink.leads_writeNumber h₁).trans (s₁.leads_writeBitmap params symbol)
    obtain ⟨s', h'⟩ := ih (h.leads hleads) hrest
      fun other hother => hsize other (List.mem_cons_of_mem symbol hother)
    exact ⟨s', bind_eq_ok.mpr ⟨s₁, h₁, h'⟩⟩

theorem exists_writeCollective (h : TakesSymbols s) (height : Nat) {symbols : List Bitmap}
    (htotal : totalWidth symbols ≤ 0xFFFFFFFF) :
    ∃ s', writeCollective height symbols s = .ok s' := by
  cases s with
  | decisions => exact ⟨_, rfl⟩
  | codes w tables =>
    obtain ⟨w', hw'⟩ := h.size w
    rw [writeCollective]
    dsimp only
    rw [foldl_width, Nat.zero_add, if_neg (Nat.not_lt.mpr htotal)]
    exact ⟨_, bind_eq_ok.mpr ⟨w', hw', rfl⟩⟩

/-- Classes whose heights grow are written if the widths in each of them don't shrink. -/
theorem exists_writeClasses {settings : DecodeSettings} (h : TakesSymbols s)
    {classes : List (List Bitmap)} {height : Nat} (hrising : Rising height classes)
    (hclasses : ∀ c ∈ classes, (c.map (·.width)).Pairwise (· ≤ ·) ∧
      ∃ first others, c = first :: others ∧ ReadableClass settings first.height c) :
    ∃ s', writeClasses params classes height s = .ok s' := by
  induction classes generalizing s height with
  | nil => exact ⟨s, rfl⟩
  | cons c classes ih =>
    obtain ⟨hwidths, first, others, rfl, hc⟩ := hclasses c List.mem_cons_self
    obtain ⟨hheight, hrest⟩ := hrising
    have hrows := hc.rows_le
    have hzero : (0 :: (first :: others).map (·.width)).Pairwise (· ≤ ·) :=
      List.pairwise_cons.mpr ⟨fun _ _ => Nat.zero_le _, hwidths⟩
    obtain ⟨s₁, h₁⟩ := (h.height ((first.height : Int) - height) (by omega)).exists_writeNumber
      (by unfold FitsSigned; omega)
    have htakes₁ := h.leads (Sink.leads_writeNumber h₁)
    obtain ⟨s₂, h₂⟩ := exists_writeWidths params htakes₁ hzero hc.width
    have htakes₂ := htakes₁.leads (leads_writeWidths h₂)
    obtain ⟨s₃, h₃⟩ := exists_writeCollective htakes₂ first.height hc.totalWidth_le
    obtain ⟨s', h'⟩ := ih (htakes₂.leads (leads_writeCollective h₃)) hrest
      fun c' hc' => hclasses c' (List.mem_cons_of_mem _ hc')
    exact ⟨s', bind_eq_ok.mpr ⟨s₁, h₁, bind_eq_ok.mpr ⟨s₂, h₂, bind_eq_ok.mpr ⟨s₃, h₃, h'⟩⟩⟩⟩

theorem exists_writeExported (h : TakesSymbols s) (flags : List Bool) :
    ∃ s', writeExported flags s = .ok s' := by
  unfold writeExported
  generalize exportRuns flags = runs
  induction runs generalizing s with
  | nil => exact ⟨s, rfl⟩
  | cons run runs ih =>
    obtain ⟨s₁, h₁⟩ := (h.run run (Int.natCast_nonneg run)).exists_writeValue
    obtain ⟨s', h'⟩ := ih (h.leads (Sink.leads_writeValue h₁))
    rw [List.foldlM_cons]
    exact ⟨s', bind_eq_ok.mpr ⟨s₁, h₁, h'⟩⟩

/-- Dictionaries of symbols that can be read back are written. -/
theorem exists_encode {symbols : List Bitmap} {exports : List Bool} (h : Storable symbols)
    (hpos : ∀ s ∈ symbols, 0 < s.width ∧ 0 < s.height) (hexports : exports.length = symbols.length)
    (coding : Coding) :
    ∃ data, encode symbols exports coding =
      .ok ⟨data, (orderOf symbols).map (·.2), exportedOf symbols exports⟩ := by
  have hany : ¬(symbols.any fun s => s.width == 0 || s.height == 0) = true := by
    simp only [List.any_eq_true, Bool.or_eq_true, beq_iff_eq, not_exists, not_and]
    intro s hs
    have := hpos s hs
    omega
  have hlength := h.length
  have hsorted := pairwise_orderOf symbols
  have hrising : Rising 0 (classesOf ((orderOf symbols).map (·.1))) :=
    rising_classesOf hsorted fun s hs => (hpos s ((orderOf_perm symbols).mem_iff.mp hs)).2
  have hsettings : 0x40000000 ≤ ({} : DecodeSettings).maxPixelCount := le_rfl
  have hclasses := readableClass_of_storable h hsettings hpos
  obtain ⟨start, hstart, htakes⟩ := exists_sinkFor coding
    ⟨headerBytes coding (exportedOf symbols exports).length symbols.length, 0⟩
  obtain ⟨middle, hmiddle⟩ := exists_writeClasses (pixelCoding coding.template) htakes hrising
    fun c hc => ⟨pairwise_width_of_mem_classesOf hsorted hc, hclasses c hc⟩
  obtain ⟨sink, hsink⟩ := exists_writeExported (htakes.leads (leads_writeClasses hmiddle))
    (((orderOf symbols).map (·.2)).map fun i => exports.getD i false)
  unfold encode
  rw [if_neg hany, if_neg (not_not.mpr hexports), if_neg (by omega)]
  dsimp only
  rw [writeFlags_eq]
  exact ⟨_, bind_eq_ok.mpr ⟨start, hstart, bind_eq_ok.mpr ⟨middle, hmiddle,
    bind_eq_ok.mpr ⟨sink, hsink, rfl⟩⟩⟩⟩

end Symbol
end Bilevel

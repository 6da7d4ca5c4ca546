import Bilevel.Proofs.StableSort
import Bilevel.Proofs.Text.Region

/-!
# Text regions that come back

A text region isn't written if some number in it doesn't fit a field. This can't happen if its
instances aren't too far away, so that such a region always comes back: with the same instances, now
in the order of their strips, and with the same pixels.

## Main definitions

* `Text.placeKey` — the strip of an instance, and its column.

## Main results

* `Text.exists_encodeRegion` — text regions that can be read are written.
* `Text.region_roundTrip` — text regions with instances that aren't too far away.
-/

namespace Bilevel

open Mq

namespace Text

/-! ## The order of instances -/

/-- The strip in which an instance is, and in a strip the column. -/
def placeKey (logStrips : Nat) (p : Placement) : ℤ ×ₗ ℤ := toLex (p.y / 2 ^ logStrips, p.x)

theorem comesBefore_iff (logStrips : Nat) (p q : Placement) :
    comesBefore logStrips p q = true ↔ placeKey logStrips p ≤ placeKey logStrips q := by
  simp [comesBefore, placeKey, stripOf, Int.shiftRight_eq_div_pow, Prod.Lex.toLex_le_toLex]

/-! ## Writing -/

section

variable {s : Sink} {bits logStrips : Nat} {symbols : Array Bitmap}

theorem fitsSigned_of_natAbs_le {n : Int} (h : n.natAbs ≤ 0x7FFFFFFF) : FitsSigned n := by
  unfold FitsSigned
  omega

/-- The next strip is written, with the place of its first instance. -/
theorem exists_writeStrip (hs : s.CodesIds bits) {cursor : Cursor} {p : Placement}
    (h : NewStrip logStrips cursor p) :
    ∃ s₁ s', s.writeNumber .deltaStrip (stripOf logStrips p - cursor.strip) = .ok s₁ ∧
      s₁.writeNumber .firstInStrip (p.x - cursor.first) = .ok s' := by
  obtain ⟨s₁, h₁⟩ := (hs.takes .deltaStrip _).exists_writeNumber
    (fitsSigned_of_natAbs_le h.strip)
  obtain ⟨s', h'⟩ := ((hs.writeNumber h₁).takes .firstInStrip _).exists_writeNumber
    (fitsSigned_of_natAbs_le h.first)
  exact ⟨s₁, s', h₁, h'⟩

/-- A place that can be read is written. -/
theorem exists_writePlace (hs : s.CodesIds bits) {cursor : Cursor} {p : Placement}
    (h : PlaceReadable logStrips cursor p) :
    ∃ result, writePlace logStrips cursor p s = .ok result := by
  unfold writePlace
  cases hlast : cursor.last with
  | none =>
    obtain ⟨s₁, s', h₁, h'⟩ := exists_writeStrip hs (h.next (by simp [hlast]))
    exact ⟨_, bind_eq_ok.mpr ⟨s₁, h₁, bind_eq_ok.mpr ⟨s', h', rfl⟩⟩⟩
  | some last =>
    dsimp only
    split
    · next hsame =>
      obtain ⟨s', h'⟩ := (hs.takes .deltaInStrip _).exists_writeNumber
        (fitsSigned_of_natAbs_le (h.same last hlast hsame))
      exact ⟨_, bind_eq_ok.mpr ⟨s', h', rfl⟩⟩
    · next hother =>
      obtain ⟨s₀, h₀⟩ := (hs.takes .deltaInStrip none).exists_writeValue
      obtain ⟨s₁, s', h₁, h'⟩ := exists_writeStrip (hs.writeValue h₀) (h.next fun _ => hother)
      exact ⟨_, bind_eq_ok.mpr ⟨s₀, h₀, bind_eq_ok.mpr ⟨s₁, h₁, bind_eq_ok.mpr ⟨s', h', rfl⟩⟩⟩⟩

/-- Instances whose places can be read are written. -/
theorem exists_writeInstances (hs : s.CodesIds bits) (hlog : logStrips ≤ 3) {cursor : Cursor}
    {ps : List Placement} (hps : ∀ p ∈ ps, FitsSigned p.y)
    (h : Readable logStrips symbols cursor ps) :
    ∃ s', writeInstances logStrips symbols ps cursor s = .ok s' := by
  induction ps generalizing s cursor with
  | nil =>
    unfold writeInstances
    split
    · exact (hs.takes .deltaInStrip none).exists_writeValue
    · exact ⟨s, rfl⟩
  | cons p ps ih =>
    obtain ⟨hplace, -, hrest⟩ := h
    obtain ⟨⟨cursor₁, s₁⟩, h₁⟩ := exists_writePlace hs hplace
    have hs₁ := codesIds_writePlace hs h₁
    rw [← cursor_writePlace h₁] at hrest
    have hrest' := fun {s : Sink} (hs : s.CodesIds bits) =>
      ih hs (fun q hq => hps q (List.mem_cons_of_mem p hq)) hrest
    by_cases hzero : logStrips = 0
    · obtain ⟨s', h'⟩ := hrest' (hs₁.writeSymbolId p.symbol)
      refine ⟨s', bind_eq_ok.mpr ⟨_, h₁, ?_⟩⟩
      dsimp only
      rw [if_pos hzero]
      exact h'
    · obtain ⟨-, hrows⟩ := stripOf_spec hlog (hps p List.mem_cons_self)
      obtain ⟨s₂, h₂⟩ := (hs₁.takes .acrossStrip
        (p.y - stripOf logStrips p * stripRows logStrips)).exists_writeNumber
          (by unfold FitsSigned; omega)
      obtain ⟨s', h'⟩ := hrest' ((hs₁.writeNumber h₂).writeSymbolId p.symbol)
      refine ⟨s', bind_eq_ok.mpr ⟨_, h₁, ?_⟩⟩
      dsimp only
      rw [if_neg hzero]
      exact bind_eq_ok.mpr ⟨s₂, h₂, h'⟩

/-- Text regions whose instances can be read are written. -/
theorem exists_encodeRegion (info : RegionInfo) {instances : List Placement} (hlog : logStrips ≤ 3)
    (hsymbols : symbols.size ≤ 0xFFFFFFFF) (hcount : instances.length ≤ 0xFFFFFFFF)
    (hinstances : ∀ p ∈ instances, p.symbol < symbols.size ∧ FitsSigned p.y)
    (h : Legible symbols instances logStrips) :
    ∃ data, encodeRegion info symbols instances logStrips = .ok data := by
  have hany : ¬(instances.any (symbols.size ≤ ·.symbol)) = true := by
    simp only [List.any_eq_true, decide_eq_true_eq, not_exists, not_and, Nat.not_le]
    exact fun p hp => (hinstances p hp).1
  have hids : (Sink.decisions .start (.fresh (symbolCodeLength symbols.size) #[] #[])).CodesIds
      (symbolCodeLength symbols.size) := rfl
  obtain ⟨s₁, h₁⟩ := (hids.takes .deltaStrip (some 0)).exists_writeNumber (by decide)
  obtain ⟨s', h'⟩ := exists_writeInstances (hids.writeNumber h₁) hlog
    (fun p hp => (hinstances p (List.mem_mergeSort.mp hp)).2) h
  unfold encodeRegion
  rw [if_neg (by omega), if_neg hany, if_neg (by omega)]
  exact ⟨_, bind_eq_ok.mpr ⟨s₁, h₁, bind_eq_ok.mpr ⟨s', h', rfl⟩⟩⟩

end

/-! ## Regions -/

/-- A text region is written if its instances aren't too far away, and comes back. Its instances are
sorted stably by strip and column, and otherwise as they were given. The region shows all of them,
in whichever order they are drawn. -/
theorem region_roundTrip {settings : DecodeSettings}
    (hsettings : 0x40000000 ≤ settings.maxPixelCount) {info : RegionInfo} (hinfo : info.Fits)
    (hsize : info.width * info.height ≤ 0x40000000) {symbols : Array Bitmap}
    (hsymbols : symbols.size < 0x80000000)
    (hsides : ∀ s ∈ symbols, s.width < 0x20000000 ∧ s.height < 0x20000000)
    {instances : List Placement} (hcount : instances.length < 0x100000000)
    (hinstances : ∀ p ∈ instances, p.symbol < symbols.size ∧
      (-0x20000000 ≤ p.x ∧ p.x < 0x20000000) ∧ (-0x20000000 ≤ p.y ∧ p.y < 0x20000000))
    {logStrips : Nat} (hlog : logStrips ≤ 3) :
    ∃ data placements, encodeRegion info symbols instances logStrips = .ok data ∧
      StablySorted (placeKey logStrips) instances placements.toList ∧
      let blank := Bitmap.blank info.width info.height
      let drawn := Encoder.drawInstances symbols placements.toList blank
      decodeRegion settings data symbols [] = .ok ⟨⟨info, drawn⟩, placements⟩ ∧
        drawn = Encoder.drawInstances symbols instances blank := by
  have hlegible := legible_of_near hlog (fun s hs => (hsides s hs).1)
    fun p hp => (hinstances p hp).2
  have hsided : Sided symbols := fun s hs => by
    have := hsides s hs
    unfold FitsSigned
    omega
  have hplaced : ∀ p ∈ instances, FitsSigned p.x ∧ FitsSigned p.y := fun p hp => by
    have := hinstances p hp
    unfold FitsSigned
    omega
  obtain ⟨data, hdata⟩ := exists_encodeRegion info hlog (by omega) (by omega)
    (fun p hp => ⟨(hinstances p hp).1, (hplaced p hp).2⟩) hlegible
  have hsorted := stablySorted_mergeSort (comesBefore_iff logStrips) instances
  have hdrawn : ∀ blank, Encoder.drawInstances symbols (instances.mergeSort (comesBefore logStrips))
      blank = Encoder.drawInstances symbols instances blank := drawInstances_perm hsorted.perm
  refine ⟨data, (instances.mergeSort (comesBefore logStrips)).toArray, hdata, hsorted, ?_, hdrawn _⟩
  dsimp only
  rw [hdrawn]
  exact decodeRegion_encodeRegion hinfo (hsize.trans hsettings) hsided hplaced hlegible hdata

/-- Instances that aren't given in the order of their strips: one above the region, two in the same
place. -/
theorem region_roundTrip_unsorted :
    let info : RegionInfo := ⟨8, 8, 0, 0, .or⟩
    let symbols := #[Bitmap.blank 3 2, (Bitmap.blank 1 1).set 0 0 true]
    let instances : List Placement := [⟨0, 5, 4⟩, ⟨1, 5, 4⟩, ⟨1, 2, 6⟩, ⟨0, 7, -1⟩]
    ∃ data placements, encodeRegion info symbols instances 2 = .ok data ∧
      StablySorted (placeKey 2) instances placements.toList ∧
      let blank := Bitmap.blank info.width info.height
      let drawn := Encoder.drawInstances symbols placements.toList blank
      decodeRegion {} data symbols [] = .ok ⟨⟨info, drawn⟩, placements⟩ ∧
        drawn = Encoder.drawInstances symbols instances blank := by
  intro info symbols instances
  have hinfo : info.Fits := ⟨by decide, by decide, by decide, by decide⟩
  have hsides : ∀ s ∈ symbols, s.width < 0x20000000 ∧ s.height < 0x20000000 := by decide +kernel
  have hinstances : ∀ p ∈ instances, p.symbol < symbols.size ∧
      (-0x20000000 ≤ p.x ∧ p.x < 0x20000000) ∧ (-0x20000000 ≤ p.y ∧ p.y < 0x20000000) := by
    decide
  have hsettings : 0x40000000 ≤ ({} : DecodeSettings).maxPixelCount := le_rfl
  exact region_roundTrip hsettings hinfo (by decide) (by decide) hsides (by decide) hinstances
    (by decide)

end Text
end Bilevel

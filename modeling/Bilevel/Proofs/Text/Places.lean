import Bilevel.Proofs.Steps
import Bilevel.Proofs.Symbol.Link
import Bilevel.Text.Region

/-!
# Reading back the places of instances

The place of an instance is written as its distance from an instance before it. What is written
counts strips, what is read counts the rows in front of a strip; otherwise both sides keep track of
the same place. What is read has to fit signed numbers all along, which is not checked for what is
written.

## Main definitions

* `Text.Placeable` — an instance that can be placed.
* `Text.NewStrip`, `Text.PlaceReadable` — whether the place of an instance can be read.
* `Text.Behind` — the places behind some instances on both sides.

## Main results

* `Text.next_writePlace` — a place that can be read survives.
* `Text.placeReadable_of_next` — no other place is read.
-/

namespace Bilevel.Text

/-- How instances are read that were written. -/
def paramsOf (settings : DecodeSettings) (logStrips : Nat) : Params where
  logStrips := logStrips
  layout := ⟨.topLeft, false⟩
  operator := .or
  offset := 0
  refines := false
  style := ⟨.template0, {}⟩
  maxPixelCount := settings.maxPixelCount

/-- An instance of one of the symbols, whose coordinates fit signed numbers. -/
structure Placeable (symbols : Array Bitmap) (p : Placement) : Prop where
  symbol : p.symbol < symbols.size
  x : FitsSigned p.x
  y : FitsSigned p.y

/-- The number of rows of a strip. -/
def stripRows (logStrips : Nat) : Int := (1 <<< logStrips : Nat)

theorem stripRows_pos (logStrips : Nat) : 0 < stripRows logStrips := by
  unfold stripRows
  rw [Nat.one_shiftLeft]
  exact Int.natCast_pos.mpr (Nat.two_pow_pos logStrips)

theorem stripOf_spec {logStrips : Nat} (h : logStrips ≤ 3) {p : Placement} (hy : FitsSigned p.y) :
    FitsSigned (stripOf logStrips p * stripRows logStrips) ∧
      stripOf logStrips p * stripRows logStrips ≤ p.y ∧
      p.y < stripOf logStrips p * stripRows logStrips + 8 := by
  unfold FitsSigned at hy ⊢
  unfold stripOf stripRows
  rw [Int.shiftRight_eq_div_pow, Nat.one_shiftLeft]
  obtain rfl | rfl | rfl | rfl : logStrips = 0 ∨ logStrips = 1 ∨ logStrips = 2 ∨ logStrips = 3 := by
    omega
  all_goals
    norm_num
    omega

/-! ## Places that can be read -/

/-- The numbers with which a strip starts can be read: the distance from the last strip, also in
rows, and that of the first instances in both. -/
structure NewStrip (logStrips : Nat) (cursor : Cursor) (p : Placement) : Prop where
  strip : (stripOf logStrips p - cursor.strip).natAbs ≤ 0x7FFFFFFF
  rows : FitsSigned ((stripOf logStrips p - cursor.strip) * stripRows logStrips)
  first : (p.x - cursor.first).natAbs ≤ 0x7FFFFFFF

instance (logStrips : Nat) (cursor : Cursor) (p : Placement) :
    Decidable (NewStrip logStrips cursor p) :=
  decidable_of_iff ((stripOf logStrips p - cursor.strip).natAbs ≤ 0x7FFFFFFF ∧
      FitsSigned ((stripOf logStrips p - cursor.strip) * stripRows logStrips) ∧
      (p.x - cursor.first).natAbs ≤ 0x7FFFFFFF)
    ⟨fun h => ⟨h.1, h.2.1, h.2.2⟩, fun h => ⟨h.strip, h.rows, h.first⟩⟩

/-- The numbers that are written for the place of an instance can be read. -/
structure PlaceReadable (logStrips : Nat) (cursor : Cursor) (p : Placement) : Prop where
  same : ∀ last ∈ cursor.last, stripOf logStrips p = cursor.strip →
    (p.x - last).natAbs ≤ 0x7FFFFFFF
  next : (cursor.last.isSome → stripOf logStrips p ≠ cursor.strip) → NewStrip logStrips cursor p

instance (logStrips : Nat) (cursor : Cursor) (p : Placement) :
    Decidable (PlaceReadable logStrips cursor p) :=
  decidable_of_iff ((∀ last ∈ cursor.last, stripOf logStrips p = cursor.strip →
      (p.x - last).natAbs ≤ 0x7FFFFFFF) ∧
      ((cursor.last.isSome → stripOf logStrips p ≠ cursor.strip) → NewStrip logStrips cursor p))
    ⟨fun h => ⟨h.1, h.2⟩, fun h => ⟨h.same, h.next⟩⟩

/-- The place that is written for an instance, before its symbol is. -/
def cursorAt (logStrips : Nat) (cursor : Cursor) (p : Placement) : Cursor :=
  if cursor.last.isSome ∧ stripOf logStrips p = cursor.strip then cursor
  else ⟨stripOf logStrips p, p.x, none⟩

/-- The places behind some instances: what is written counts strips, what is read counts rows. -/
structure Behind (logStrips : Nat) (written read : Cursor) : Prop where
  strip : read.strip = written.strip * stripRows logStrips
  first : read.first = written.first
  last : read.last = written.last

/-- The place in front of all strips is the same on both sides. -/
theorem behind_start (logStrips : Nat) : Behind logStrips ⟨0, 0, none⟩ ⟨0, 0, none⟩ := by
  constructor <;> simp

theorem checkSigned_eq {n : Int} (h : FitsSigned n) : checkSigned n = .ok n :=
  checkSigned_eq_ok.mpr ⟨h, rfl⟩

/-- Going from one place to another. -/
theorem checkSigned_add_sub {n : Int} (h : FitsSigned n) (m : Int) :
    checkSigned (m + (n - m)) = .ok n := by
  rw [add_sub_cancel]
  exact checkSigned_eq h

section

variable {tape : Tape} {sink sink₁ sink₂ : Sink} {source : Source} {settings : DecodeSettings}
  {logStrips : Nat} {cursor cursor₁ cursor' : Cursor} {symbols : Array Bitmap} {p : Placement}
  {code t : List UInt8}

/-! ## Strips -/

variable (settings logStrips) in
theorem start_writeNumber (h : Linked tape sink source)
    (hw : sink.writeNumber .deltaStrip 0 = .ok sink₁) (hon : sink₁.On tape) :
    ∃ source', Cursor.start (paramsOf settings logStrips) source = .ok (⟨0, 0, none⟩, source') ∧
      Linked tape sink₁ source' := by
  obtain ⟨source', hread, h'⟩ := h.readNumber (by decide) (Sink.writeValue_of_writeNumber hw) hon
  refine ⟨source', ?_, h'⟩
  have hcheck : checkSigned (0 * stripRows logStrips) = .ok 0 := by
    rw [Int.zero_mul]
    rfl
  have hdist : Cursor.readStripDistance (paramsOf settings logStrips) source = .ok (0, source') := by
    unfold Cursor.readStripDistance
    rw [run_bind_ok hread]
    exact run_lift_ok hcheck
  unfold Cursor.start
  rw [run_bind_ok hdist]
  rfl

/-- Going on to the strip of an instance. -/
theorem nextStrip_writeNumber (h : Linked tape sink source) (hlog : logStrips ≤ 3)
    (hb : Behind logStrips cursor cursor') (hp : Placeable symbols p)
    (hnew : NewStrip logStrips cursor p)
    (hstrip : sink.writeNumber .deltaStrip (stripOf logStrips p - cursor.strip) = .ok sink₁)
    (hfirst : sink₁.writeNumber .firstInStrip (p.x - cursor.first) = .ok sink₂)
    (hon : sink₂.On tape) :
    ∃ source', cursor'.nextStrip (paramsOf settings logStrips) source =
        .ok ((⟨stripOf logStrips p * stripRows logStrips, p.x, cursor'.last⟩, p.x), source') ∧
      Linked tape sink₂ source' := by
  obtain ⟨hfits, -⟩ := stripOf_spec hlog hp.y
  have hproper₁ := (Sink.leads_writeNumber hstrip).proper h.proper
  obtain ⟨source₁, hread₁, h₁⟩ := h.readNumber hnew.strip (Sink.writeValue_of_writeNumber hstrip)
    ((Sink.leads_writeNumber hfirst).on hproper₁ hon)
  obtain ⟨source₂, hread₂, h₂⟩ := h₁.readNumber hnew.first
    (Sink.writeValue_of_writeNumber hfirst) hon
  refine ⟨source₂, ?_, h₂⟩
  have hdistance : (stripOf logStrips p - cursor.strip) * stripRows logStrips =
      stripOf logStrips p * stripRows logStrips - cursor'.strip := by
    rw [hb.strip, Int.sub_mul]
  have hcheck : checkSigned ((stripOf logStrips p - cursor.strip) * stripRows logStrips) =
      .ok (stripOf logStrips p * stripRows logStrips - cursor'.strip) := by
    rw [← hdistance]
    exact checkSigned_eq hnew.rows
  have hx : checkSigned (cursor'.first + (p.x - cursor.first)) = .ok p.x := by
    rw [hb.first]
    exact checkSigned_add_sub hp.x _
  have hdist : Cursor.readStripDistance (paramsOf settings logStrips) source =
      .ok (stripOf logStrips p * stripRows logStrips - cursor'.strip, source₁) := by
    unfold Cursor.readStripDistance
    rw [run_bind_ok hread₁]
    exact run_lift_ok hcheck
  unfold Cursor.nextStrip
  rw [run_bind_ok hdist, run_bind_lift (checkSigned_add_sub hfits _), run_bind_ok hread₂,
    run_bind_lift hx]
  rfl

/-- No other strip is gone on to. -/
theorem newStrip_of_nextStrip (h : Linked (.decisions code t) sink source)
    (hstrip : sink.writeNumber .deltaStrip (stripOf logStrips p - cursor.strip) = .ok sink₁)
    (hfirst : sink₁.writeNumber .firstInStrip (p.x - cursor.first) = .ok sink₂)
    (hon : sink₂.On (.decisions code t)) {result : (Cursor × Int) × Source}
    (hread : cursor'.nextStrip (paramsOf settings logStrips) source = .ok result) :
    NewStrip logStrips cursor p := by
  have hproper₁ := (Sink.leads_writeNumber hstrip).proper h.proper
  have hon₁ := (Sink.leads_writeNumber hfirst).on hproper₁ hon
  obtain ⟨distance, s₁, hdistance, hplace⟩ := run_bind_eq_ok.mp hread
  obtain ⟨n, s, hnumber, hrows⟩ := run_bind_eq_ok.mp hdistance
  have hsmall := h.natAbs_le_of_readNumber hstrip hon₁ hnumber
  obtain ⟨source₁, hread₁, h₁⟩ := h.readNumber hsmall (Sink.writeValue_of_writeNumber hstrip) hon₁
  obtain ⟨rfl, rfl⟩ := Prod.mk.inj (Except.ok.inj (hread₁.symm.trans hnumber))
  obtain ⟨hfits, rfl⟩ := run_lift_eq_ok.mp hrows
  obtain ⟨strip, s₂, hstart, hrest⟩ := run_bind_eq_ok.mp hplace
  obtain ⟨-, rfl⟩ := run_lift_eq_ok.mp hstart
  obtain ⟨m, s₃, hnumber', -⟩ := run_bind_eq_ok.mp hrest
  exact ⟨hsmall, (checkSigned_eq_ok.mp hfits).1, h₁.natAbs_le_of_readNumber hfirst hon hnumber'⟩

/-- Behind the last instance of a strip, if there is one, its end is written. -/
def EndsStrip (cursor : Cursor) (sink sink' : Sink) : Prop :=
  match cursor.last with
  | none => sink' = sink
  | some _ => sink.writeValue .deltaInStrip none = .ok sink'

theorem EndsStrip.leads (h : EndsStrip cursor sink sink₁) : sink.Leads sink₁ := by
  unfold EndsStrip at h
  split at h
  · exact h ▸ .refl sink
  · exact Sink.leads_writeValue h

theorem EndsStrip.codesIds {bits : Nat} (h : EndsStrip cursor sink sink₁)
    (hs : sink.CodesIds bits) : sink₁.CodesIds bits := by
  unfold EndsStrip at h
  split at h
  · exact h ▸ hs
  · exact hs.writeValue h

/-- What was written at the end of a strip is read back. -/
theorem EndsStrip.linked (h : Linked tape sink source) (hend : EndsStrip cursor sink sink₁)
    (hon : sink₁.On tape) : ∃ source', Linked tape sink₁ source' ∧
      (cursor.last = none → source' = source) ∧ ∀ last, cursor.last = some last →
        Source.readValue .deltaInStrip source = .ok (none, source') := by
  unfold EndsStrip at hend
  cases hcursor : cursor.last with
  | none =>
    rw [hcursor] at hend
    obtain rfl := hend
    exact ⟨source, h, fun _ => rfl, nofun⟩
  | some last =>
    rw [hcursor] at hend
    obtain ⟨source', hread, h'⟩ := h.readValue Mq.Integer.representable_none hend hon
    exact ⟨source', h', nofun, fun _ _ => hread⟩

/-- The end of a strip leads on to the next one. -/
theorem next_endsStrip (h : Linked tape sink source) (hlast : cursor'.last = cursor.last)
    (hend : EndsStrip cursor sink sink₁) (hon : sink₁.On tape) (params : Params) :
    ∃ source', cursor'.next params source = cursor'.nextStrip params source' ∧
      Linked tape sink₁ source' := by
  obtain ⟨source', h', hnone, hsome⟩ := hend.linked h hon
  refine ⟨source', ?_, h'⟩
  unfold Cursor.next
  rw [hlast]
  cases hcursor : cursor.last with
  | none => rw [hnone hcursor]
  | some last => exact run_bind_ok (hsome last hcursor)

/-- The last strip ends behind the last instance. -/
theorem finish_endsStrip (h : Linked tape sink source) (hlast : cursor'.last = cursor.last)
    (hend : EndsStrip cursor sink sink₁) (hon : sink₁.On tape) (params : Params) :
    ∃ source', cursor'.finish params source = .ok ((), source') ∧ Linked tape sink₁ source' := by
  obtain ⟨source', h', hnone, hsome⟩ := hend.linked h hon
  refine ⟨source', ?_, h'⟩
  unfold Cursor.finish
  rw [hlast]
  cases hcursor : cursor.last with
  | none =>
    rw [hnone hcursor]
    rfl
  | some last => exact run_bind_ok (hsome last hcursor)

/-! ## Places along a strip -/

/-- What is written for the place of an instance: the distance from its neighbour in the strip, or
the end of the strip and the next one. -/
theorem writePlace_cases (h : writePlace logStrips cursor p sink = .ok (cursor₁, sink₁)) :
    (∃ last, cursor.last = some last ∧ stripOf logStrips p = cursor.strip ∧
      sink.writeNumber .deltaInStrip (p.x - last) = .ok sink₁ ∧ cursor₁ = cursor) ∨
    ∃ sink₂ sink₃, EndsStrip cursor sink sink₂ ∧
      sink₂.writeNumber .deltaStrip (stripOf logStrips p - cursor.strip) = .ok sink₃ ∧
      sink₃.writeNumber .firstInStrip (p.x - cursor.first) = .ok sink₁ ∧
      (cursor.last.isSome → stripOf logStrips p ≠ cursor.strip) ∧
      cursor₁ = ⟨stripOf logStrips p, p.x, none⟩ := by
  unfold writePlace at h
  unfold EndsStrip
  cases hlast : cursor.last with
  | some last =>
    simp only [hlast] at h
    split at h
    · next hsame =>
      obtain ⟨sink', hnumber, h⟩ := bind_eq_ok.mp h
      obtain ⟨rfl, rfl⟩ := Prod.mk.inj (Except.ok.inj h)
      exact .inl ⟨last, rfl, hsame, hnumber, rfl⟩
    · next hother =>
      obtain ⟨sink₂, hend, h⟩ := bind_eq_ok.mp h
      obtain ⟨sink₃, hstrip, h⟩ := bind_eq_ok.mp h
      obtain ⟨sink₄, hfirst, h⟩ := bind_eq_ok.mp h
      obtain ⟨rfl, rfl⟩ := Prod.mk.inj (Except.ok.inj h)
      exact .inr ⟨sink₂, sink₃, hend, hstrip, hfirst, fun _ => hother, rfl⟩
  | none =>
    simp only [hlast] at h
    obtain ⟨sink₃, hstrip, h⟩ := bind_eq_ok.mp h
    obtain ⟨sink₄, hfirst, h⟩ := bind_eq_ok.mp h
    obtain ⟨rfl, rfl⟩ := Prod.mk.inj (Except.ok.inj h)
    exact .inr ⟨sink, sink₃, rfl, hstrip, hfirst, fun h => absurd h (by simp), rfl⟩

theorem cursor_writePlace (h : writePlace logStrips cursor p sink = .ok (cursor₁, sink₁)) :
    cursor₁ = cursorAt logStrips cursor p := by
  unfold cursorAt
  rcases writePlace_cases h with ⟨last, hlast, hsame, -, rfl⟩ | ⟨_, _, -, -, -, hother, rfl⟩
  · rw [if_pos ⟨hlast ▸ rfl, hsame⟩]
  · rw [if_neg fun h => hother h.1 h.2]

theorem leads_writePlace (h : writePlace logStrips cursor p sink = .ok (cursor₁, sink₁)) :
    sink.Leads sink₁ := by
  rcases writePlace_cases h with ⟨last, -, -, hnumber, -⟩ | ⟨sink₂, sink₃, hend, hstrip, hfirst, -⟩
  · exact Sink.leads_writeNumber hnumber
  · exact (hend.leads.trans (Sink.leads_writeNumber hstrip)).trans (Sink.leads_writeNumber hfirst)

theorem codesIds_writePlace {bits : Nat} (hs : sink.CodesIds bits)
    (h : writePlace logStrips cursor p sink = .ok (cursor₁, sink₁)) : sink₁.CodesIds bits := by
  rcases writePlace_cases h with ⟨last, -, -, hnumber, -⟩ | ⟨sink₂, sink₃, hend, hstrip, hfirst, -⟩
  · exact hs.writeNumber hnumber
  · exact ((hend.codesIds hs).writeNumber hstrip).writeNumber hfirst

variable (settings) in
/-- The place of an instance along its strip is read, and the strip in which it lies. -/
theorem next_writePlace (h : Linked tape sink source) (hlog : logStrips ≤ 3)
    (hb : Behind logStrips cursor cursor') (hp : Placeable symbols p)
    (hreadable : PlaceReadable logStrips cursor p)
    (hw : writePlace logStrips cursor p sink = .ok (cursor₁, sink₁)) (hon : sink₁.On tape) :
    ∃ cursor₁' source', cursor'.next (paramsOf settings logStrips) source =
        .ok ((cursor₁', p.x), source') ∧
      (cursor₁.strip = stripOf logStrips p ∧
        cursor₁'.strip = stripOf logStrips p * stripRows logStrips ∧
        cursor₁'.first = cursor₁.first) ∧
      Linked tape sink₁ source' := by
  rcases writePlace_cases hw with
    ⟨last, hlast, hsame, hnumber, rfl⟩ | ⟨sink₂, sink₃, hend, hstrip, hfirst, hother, rfl⟩
  · obtain ⟨source', hread, h'⟩ := h.readValue
      (Mq.Integer.representable_some (hreadable.same last hlast hsame))
      (Sink.writeValue_of_writeNumber hnumber) hon
    refine ⟨cursor', source', ?_, ⟨hsame.symm, by rw [hsame, hb.strip], hb.first⟩, h'⟩
    have hadvance : Cursor.advance (paramsOf settings logStrips) last (p.x - last) = .ok p.x := by
      unfold Cursor.advance
      rw [checkSigned_add_sub hp.x]
      change checkSigned (p.x + 0) = _
      rw [Int.add_zero, checkSigned_eq hp.x]
    unfold Cursor.next
    rw [hb.last, hlast]
    refine (run_bind_ok hread).trans ?_
    exact run_bind_lift hadvance
  · have hproper₂ := hend.leads.proper h.proper
    have hproper₃ := (Sink.leads_writeNumber hstrip).proper hproper₂
    have hon₃ := (Sink.leads_writeNumber hfirst).on hproper₃ hon
    obtain ⟨source₂, hnext, h₂⟩ := next_endsStrip h hb.last hend
      ((Sink.leads_writeNumber hstrip).on hproper₂ hon₃) (paramsOf settings logStrips)
    obtain ⟨source', hread, h'⟩ :=
      nextStrip_writeNumber h₂ hlog hb hp (hreadable.next hother) hstrip hfirst hon
    exact ⟨_, source', hnext.trans hread, ⟨rfl, rfl, rfl⟩, h'⟩

/-- No other place is read. -/
theorem placeReadable_of_next (h : Linked (.decisions code t) sink source)
    (hb : Behind logStrips cursor cursor')
    (hw : writePlace logStrips cursor p sink = .ok (cursor₁, sink₁))
    (hon : sink₁.On (.decisions code t)) {result : (Cursor × Int) × Source}
    (hread : cursor'.next (paramsOf settings logStrips) source = .ok result) :
    PlaceReadable logStrips cursor p := by
  rcases writePlace_cases hw with
    ⟨last, hlast, hsame, hnumber, -⟩ | ⟨sink₂, sink₃, hend, hstrip, hfirst, hother, -⟩
  · refine ⟨fun last' hlast' _ => ?_, fun hother => absurd hsame (hother (hlast ▸ rfl))⟩
    obtain rfl := Option.some.inj (hlast.symm.trans hlast')
    unfold Cursor.next at hread
    rw [hb.last, hlast] at hread
    obtain ⟨value, s, hvalue, -⟩ := run_bind_eq_ok.mp hread
    exact h.natAbs_le_of_readValue hnumber hon hvalue
  · refine ⟨fun last hlast hsame => absurd hsame (hother (Option.isSome_of_mem hlast)), fun _ => ?_⟩
    have hproper₂ := hend.leads.proper h.proper
    have hproper₃ := (Sink.leads_writeNumber hstrip).proper hproper₂
    have hon₃ := (Sink.leads_writeNumber hfirst).on hproper₃ hon
    obtain ⟨source₂, hnext, h₂⟩ := next_endsStrip h hb.last hend
      ((Sink.leads_writeNumber hstrip).on hproper₂ hon₃) (paramsOf settings logStrips)
    exact newStrip_of_nextStrip h₂ hstrip hfirst hon (hnext.symm.trans hread)

end

end Bilevel.Text

import Bilevel.Encoder
import Bilevel.Proofs.Text.Places

/-!
# Reading back symbol instances

Instances that are written one after another are read and drawn in the same order, as long as their
places can be read. Otherwise they are not read at all.

## Main definitions

* `Text.Readable` — whether the places of instances that are written can be read.

## Main results

* `Text.readInstances_writeInstances` — instances survive.
* `Text.readable_of_readInstances` — no other instances are read.
-/

namespace Bilevel.Text

/-- The last column of an instance. -/
def lastColumn (symbols : Array Bitmap) (p : Placement) : Int :=
  p.x + (symbols[p.symbol]?.map fun s => (s.width : Int)).getD 0 - 1

/-- The cursor behind an instance whose place was written. -/
def behind (symbols : Array Bitmap) (p : Placement) (cursor : Cursor) : Cursor :=
  { cursor with last := some (lastColumn symbols p) }

/-- Whether instances can be read that are written from a place on: the place of each of them can
be read, and it ends in the range of coordinates. -/
def Readable (logStrips : Nat) (symbols : Array Bitmap) : Cursor → List Placement → Prop
  | _, [] => True
  | cursor, p :: rest => PlaceReadable logStrips cursor p ∧ FitsSigned (lastColumn symbols p) ∧
      Readable logStrips symbols (behind symbols p (cursorAt logStrips cursor p)) rest

instance decidableReadable (logStrips : Nat) (symbols : Array Bitmap) :
    (cursor : Cursor) → (ps : List Placement) → Decidable (Readable logStrips symbols cursor ps)
  | _, [] => inferInstanceAs (Decidable True)
  | cursor, p :: rest =>
    have := decidableReadable logStrips symbols (behind symbols p (cursorAt logStrips cursor p)) rest
    inferInstanceAs (Decidable (_ ∧ _ ∧ _))

/-- A place from which everything can be reached that isn't too far away. -/
structure Close (logStrips : Nat) (cursor : Cursor) : Prop where
  strip : -0x20000008 ≤ cursor.strip * stripRows logStrips ∧
    cursor.strip * stripRows logStrips < 0x20000000
  first : -0x20000000 ≤ cursor.first ∧ cursor.first < 0x20000000
  last : ∀ n ∈ cursor.last, -0x20000001 ≤ n ∧ n < 0x40000000

/-- Instances that aren't too far away can be read. -/
theorem readable_of_close {logStrips : Nat} (hlog : logStrips ≤ 3) {symbols : Array Bitmap}
    (hsymbols : ∀ s ∈ symbols, s.width < 0x20000000) {ps : List Placement}
    (hps : ∀ p ∈ ps, (-0x20000000 ≤ p.x ∧ p.x < 0x20000000) ∧
      (-0x20000000 ≤ p.y ∧ p.y < 0x20000000)) {cursor : Cursor} (h : Close logStrips cursor) :
    Readable logStrips symbols cursor ps := by
  induction ps generalizing cursor with
  | nil => trivial
  | cons p ps ih =>
    obtain ⟨hx, hy⟩ := hps p List.mem_cons_self
    have hstrip := h.strip
    have hfirst := h.first
    obtain ⟨-, hrows₁, hrows₂⟩ := stripOf_spec hlog (p := p) (by unfold FitsSigned; omega)
    have hdistance : (stripOf logStrips p - cursor.strip) * stripRows logStrips =
        stripOf logStrips p * stripRows logStrips - cursor.strip * stripRows logStrips :=
      Int.sub_mul ..
    have hnew : NewStrip logStrips cursor p := by
      have hle : (stripOf logStrips p - cursor.strip).natAbs ≤
          ((stripOf logStrips p - cursor.strip) * stripRows logStrips).natAbs := by
        rw [Int.natAbs_mul]
        exact Nat.le_mul_of_pos_right _ (Int.natAbs_pos.mpr (stripRows_pos logStrips).ne')
      exact ⟨by omega, by unfold FitsSigned; omega, by omega⟩
    have hcolumn : -0x20000001 ≤ lastColumn symbols p ∧ lastColumn symbols p < 0x40000000 := by
      unfold lastColumn
      cases hsymbol : symbols[p.symbol]? with
      | none =>
        simp only [Option.map_none, Option.getD_none]
        omega
      | some s =>
        have := hsymbols s (Array.mem_of_getElem? hsymbol)
        simp only [Option.map_some, Option.getD_some]
        omega
    refine ⟨⟨fun last hlast _ => ?_, fun _ => hnew⟩, by unfold FitsSigned; omega,
      ih (fun q hq => hps q (List.mem_cons_of_mem p hq)) ?_⟩
    · have := h.last last hlast
      omega
    · have hlast : ∀ n ∈ some (lastColumn symbols p), -0x20000001 ≤ n ∧ n < 0x40000000 :=
        fun n hn => Option.some.inj hn ▸ hcolumn
      unfold behind cursorAt
      split
      · exact ⟨hstrip, hfirst, hlast⟩
      · exact ⟨⟨by simp only; omega, by simp only; omega⟩, hx, hlast⟩

section

variable {tape : Tape} {sink sink₁ sink₂ : Sink} {source : Source} {settings : DecodeSettings}
  {logStrips : Nat} {cursor cursor' : Cursor} {symbols : Array Bitmap} {p : Placement}

/-- The place across a strip is written, unless all strips have one row. -/
def WritesAcross (logStrips : Nat) (p : Placement) (sink sink' : Sink) : Prop :=
  if logStrips = 0 then sink' = sink
  else sink.writeNumber .acrossStrip (p.y - stripOf logStrips p * stripRows logStrips) = .ok sink'

theorem WritesAcross.leads (h : WritesAcross logStrips p sink sink₁) : sink.Leads sink₁ := by
  unfold WritesAcross at h
  split at h
  · exact h ▸ .refl sink
  · exact Sink.leads_writeNumber h

theorem WritesAcross.codesIds {bits : Nat} (h : WritesAcross logStrips p sink sink₁)
    (hs : sink.CodesIds bits) : sink₁.CodesIds bits := by
  unfold WritesAcross at h
  split at h
  · exact h ▸ hs
  · exact hs.writeNumber h

/-- What is written for an instance: its place along and across its strip, and its symbol. -/
theorem writeInstances_cons {rest : List Placement} {cursor : Cursor}
    (h : writeInstances logStrips symbols (p :: rest) cursor sink = .ok sink₁) :
    ∃ cursor₂ sink₂ sink₃, writePlace logStrips cursor p sink = .ok (cursor₂, sink₂) ∧
      WritesAcross logStrips p sink₂ sink₃ ∧
      writeInstances logStrips symbols rest (behind symbols p cursor₂)
        (sink₃.writeSymbolId p.symbol) = .ok sink₁ := by
  obtain ⟨⟨cursor₂, sink₂⟩, hplace, h⟩ := bind_eq_ok.mp h
  unfold WritesAcross
  dsimp only at h
  split at h
  · next hzero => exact ⟨cursor₂, sink₂, sink₂, hplace, (if_pos hzero).mpr rfl, h⟩
  · next hpos =>
    obtain ⟨sink₃, hacross, h⟩ := bind_eq_ok.mp h
    exact ⟨cursor₂, sink₂, sink₃, hplace, (if_neg hpos).mpr hacross, h⟩

theorem endsStrip_of_writeInstances {cursor : Cursor}
    (h : writeInstances logStrips symbols [] cursor sink = .ok sink₁) :
    EndsStrip cursor sink sink₁ := by
  unfold writeInstances at h
  unfold EndsStrip
  cases hlast : cursor.last with
  | none =>
    rw [hlast] at h
    exact (Except.ok.inj h).symm
  | some last =>
    rw [hlast] at h
    exact h

theorem leads_writeInstances {ps : List Placement} {cursor : Cursor}
    (h : writeInstances logStrips symbols ps cursor sink = .ok sink₁) : sink.Leads sink₁ := by
  induction ps generalizing sink cursor with
  | nil => exact (endsStrip_of_writeInstances h).leads
  | cons p ps ih =>
    obtain ⟨cursor₂, sink₂, sink₃, hplace, hacross, hrest⟩ := writeInstances_cons h
    exact ((leads_writePlace hplace).trans hacross.leads).trans
      ((Sink.leads_writeSymbolId sink₃ p.symbol).trans (ih hrest))

/-- The place of an instance across its strip is read. -/
theorem readAcross_writesAcross (h : Linked tape sink source) {bits : Nat}
    (hids : sink.CodesIds bits) (hlog : logStrips ≤ 3) (hp : Placeable symbols p)
    (hw : WritesAcross logStrips p sink sink₁) (hon : sink₁.On tape) :
    ∃ source', (∀ {β : Type} (f : Int → Decoding β),
        (if logStrips = 0 then pure 0 >>= f else Source.readAcross logStrips >>= f) source =
          f (p.y - stripOf logStrips p * stripRows logStrips) source') ∧
      Linked tape sink₁ source' := by
  unfold WritesAcross at hw
  obtain ⟨-, hrows₁, hrows₂⟩ := stripOf_spec hlog hp.y
  by_cases hzero : logStrips = 0
  · rw [if_pos hzero] at hw
    subst hzero
    obtain rfl := hw
    refine ⟨source, fun f => ?_, h⟩
    have hrow : p.y - stripOf 0 p * stripRows 0 = 0 := by
      have hone : stripRows 0 = 1 := rfl
      have hstrip : stripOf 0 p = p.y := Int.shiftRight_zero p.y
      rw [hone, hstrip, Int.mul_one, Int.sub_self]
    rw [hrow]
    rfl
  · rw [if_neg hzero] at hw
    obtain ⟨source', hread, h'⟩ := h.readNumber (by omega) (Sink.writeValue_of_writeNumber hw) hon
    refine ⟨source', fun f => ?_, h'⟩
    rw [if_neg hzero]
    refine run_bind_ok ?_
    cases h with
    | decisions => exact hread
    | codes => exact hids.elim

/-- An instance that is placed by its top left corner is placed where it is meant to be. -/
theorem place_topLeft {bitmap : Bitmap} (hsides : FitsSigned bitmap.width ∧
    FitsSigned bitmap.height) : (Layout.mk .topLeft false).place p.symbol bitmap p.x p.y =
      (checkSigned (p.x + bitmap.width - 1)).map fun last => (p, last) := by
  have hlast : p.x + ((bitmap.width : Int) - 1) = p.x + bitmap.width - 1 := by omega
  unfold Layout.place
  rw [checkSigned_eq hsides.1, checkSigned_eq hsides.2]
  simp only [Layout.atEnd, Corner.isLeft, Corner.isTop, hlast, Bind.bind, Except.bind, pure,
    Except.pure, Bool.not_true, Bool.false_eq_true, if_true, if_false]
  cases checkSigned (p.x + bitmap.width - 1) <;> rfl

/-- The symbols have sides that fit signed numbers. -/
def Sided (symbols : Array Bitmap) : Prop :=
  ∀ s ∈ symbols, FitsSigned s.width ∧ FitsSigned s.height

variable (settings) in
/-- One instance is read, up to its last column. -/
theorem readInstances_place (h : Linked tape sink source) {bits : Nat} (hids : sink.CodesIds bits)
    (hbits : symbols.size ≤ 2 ^ bits) (hlog : logStrips ≤ 3) (hsymbols : Sided symbols)
    (hb : Behind logStrips cursor cursor') (hp : Placeable symbols p)
    (hreadable : PlaceReadable logStrips cursor p) {cursor₂ : Cursor} {sink₃ : Sink}
    (hplace : writePlace logStrips cursor p sink = .ok (cursor₂, sink₂))
    (hacross : WritesAcross logStrips p sink₂ sink₃) (hon : (sink₃.writeSymbolId p.symbol).On tape)
    (count : Nat) (region : Bitmap) (placed : Array Placement) :
    ∃ cursor₂' source', readInstances (paramsOf settings logStrips) symbols (count + 1) cursor'
        region placed source =
          ((liftM (checkSigned (lastColumn symbols p)) : Decoding Int) >>= fun _ =>
            readInstances (paramsOf settings logStrips) symbols count cursor₂'
              (Encoder.drawInstances symbols [p] region) (placed.push p)) source' ∧
      Behind logStrips (behind symbols p cursor₂) cursor₂' ∧
      Linked tape (sink₃.writeSymbolId p.symbol) source' := by
  have hids₂ := codesIds_writePlace hids hplace
  have hids₃ := hacross.codesIds hids₂
  have hproper₂ := (leads_writePlace hplace).proper h.proper
  have hproper₃ := hacross.leads.proper hproper₂
  have hon₃ := (Sink.leads_writeSymbolId sink₃ p.symbol).on hproper₃ hon
  obtain ⟨cursor₂', source₂, hnext, ⟨hstrip, hrows, hfirst⟩, h₂⟩ :=
    next_writePlace settings h hlog hb hp hreadable hplace (hacross.leads.on hproper₂ hon₃)
  obtain ⟨source₃, hread₃, h₃⟩ := readAcross_writesAcross h₂ hids₂ hlog hp hacross hon₃
  obtain ⟨source₄, hread₄, h₄⟩ := h₃.readSymbolId hids₃ (hp.symbol.trans_le hbits) hon
  obtain ⟨symbol, hsymbol⟩ : ∃ s, symbols[p.symbol]? = some s :=
    ⟨_, Array.getElem?_eq_getElem hp.symbol⟩
  have ht : checkSigned (cursor₂'.strip + (p.y - stripOf logStrips p * stripRows logStrips)) =
      .ok p.y := by
    rw [hrows]
    exact checkSigned_add_sub hp.y _
  have hcolumn : lastColumn symbols p = p.x + symbol.width - 1 := by
    unfold lastColumn
    rw [hsymbol]
    rfl
  refine ⟨{ cursor₂' with last := some (lastColumn symbols p) }, source₄, ?_,
    ⟨?_, hfirst, rfl⟩, h₄⟩
  · have hplaced := place_topLeft (p := p) (hsymbols symbol (Array.mem_of_getElem? hsymbol))
    rw [← hcolumn] at hplaced
    have hfound : (pure symbol : Decoding Bitmap) source₄ = .ok (symbol, source₄) := rfl
    rw [readInstances, run_bind_ok hnext]
    refine (hread₃ _).trans ?_
    dsimp only
    rw [run_bind_lift ht, run_bind_ok hread₄]
    simp only [hsymbol]
    refine (run_bind_ok hfound).trans ?_
    cases hcheck : checkSigned (lastColumn symbols p) with
    | error error =>
      rw [hcheck] at hplaced
      exact (run_bind_lift_error hplaced).trans (run_bind_lift_error rfl).symm
    | ok last =>
      obtain ⟨-, rfl⟩ := checkSigned_eq_ok.mp hcheck
      rw [hcheck] at hplaced
      refine (run_bind_lift hplaced).trans ?_
      simp only [Encoder.drawInstances, List.foldl_cons, List.foldl_nil, hsymbol]
      rfl
  · rw [behind, hstrip, hrows]

variable (settings) in
/-- All instances are read and drawn in the order in which they are written. -/
theorem readInstances_writeInstances (h : Linked tape sink source) {bits : Nat}
    (hids : sink.CodesIds bits) (hbits : symbols.size ≤ 2 ^ bits) (hlog : logStrips ≤ 3)
    (hsymbols : Sided symbols) {ps : List Placement} (hps : ∀ p ∈ ps, Placeable symbols p)
    (hb : Behind logStrips cursor cursor') (hreadable : Readable logStrips symbols cursor ps)
    (hw : writeInstances logStrips symbols ps cursor sink = .ok sink₁) (hon : sink₁.On tape)
    (region : Bitmap) (placed : Array Placement) :
    ∃ source', readInstances (paramsOf settings logStrips) symbols ps.length cursor' region placed
        source = .ok ((Encoder.drawInstances symbols ps region, placed ++ ps.toArray), source') ∧
      Linked tape sink₁ source' := by
  induction ps generalizing sink source cursor cursor' region placed with
  | nil =>
    obtain ⟨source', hread, h'⟩ := finish_endsStrip h hb.last (endsStrip_of_writeInstances hw) hon
      (paramsOf settings logStrips)
    refine ⟨source', ?_, h'⟩
    rw [List.length_nil, readInstances, run_bind_ok hread, Array.append_empty]
    rfl
  | cons p ps ih =>
    obtain ⟨cursor₂, sink₂, sink₃, hplace, hacross, hrest⟩ := writeInstances_cons hw
    obtain ⟨hfirst, hcolumn, hothers⟩ := hreadable
    rw [← cursor_writePlace hplace] at hothers
    have hproper₃ := ((leads_writePlace hplace).trans hacross.leads).proper h.proper
    have hon₄ := (leads_writeInstances hrest).on
      ((Sink.leads_writeSymbolId sink₃ p.symbol).proper hproper₃) hon
    obtain ⟨cursor₂', source', hread, hb', h'⟩ := readInstances_place settings h hids hbits hlog
      hsymbols hb (hps p List.mem_cons_self) hfirst hplace hacross hon₄ ps.length region placed
    rw [run_bind_lift (checkSigned_eq hcolumn)] at hread
    have hids' := (hacross.codesIds (codesIds_writePlace hids hplace)).writeSymbolId p.symbol
    obtain ⟨source'', hread', h''⟩ := ih h' hids' (fun q hq => hps q (List.mem_cons_of_mem p hq)) hb'
      hothers hrest (Encoder.drawInstances symbols [p] region) (placed.push p)
    refine ⟨source'', ?_, h''⟩
    rw [List.length_cons, hread, hread']
    simp [Encoder.drawInstances]

/-- No other instances are read. -/
theorem readable_of_readInstances {code t : List UInt8} (h : Linked (.decisions code t) sink source)
    {bits : Nat} (hids : sink.CodesIds bits) (hbits : symbols.size ≤ 2 ^ bits)
    (hlog : logStrips ≤ 3) (hsymbols : Sided symbols) {ps : List Placement}
    (hps : ∀ p ∈ ps, Placeable symbols p) (hb : Behind logStrips cursor cursor')
    (hw : writeInstances logStrips symbols ps cursor sink = .ok sink₁)
    (hon : sink₁.On (.decisions code t)) {region : Bitmap} {placed : Array Placement}
    {result : (Bitmap × Array Placement) × Source}
    (hread : readInstances (paramsOf settings logStrips) symbols ps.length cursor' region placed
      source = .ok result) : Readable logStrips symbols cursor ps := by
  induction ps generalizing sink source cursor cursor' region placed with
  | nil => trivial
  | cons p ps ih =>
    obtain ⟨cursor₂, sink₂, sink₃, hplace, hacross, hrest⟩ := writeInstances_cons hw
    have hproper₂ := (leads_writePlace hplace).proper h.proper
    have hproper₃ := hacross.leads.proper hproper₂
    have hon₄ := (leads_writeInstances hrest).on
      ((Sink.leads_writeSymbolId sink₃ p.symbol).proper hproper₃) hon
    have hon₂ := hacross.leads.on hproper₂
      ((Sink.leads_writeSymbolId sink₃ p.symbol).on hproper₃ hon₄)
    obtain ⟨_, _, hnext, -⟩ := run_bind_eq_ok.mp hread
    have hfirst := placeReadable_of_next h hb hplace hon₂ hnext
    obtain ⟨cursor₂', source', hone, hb', h'⟩ := readInstances_place settings h hids hbits hlog
      hsymbols hb (hps p List.mem_cons_self) hfirst hplace hacross hon₄ ps.length region placed
    obtain ⟨_, _, hlast, hothers⟩ := run_bind_eq_ok.mp (hone.symm.trans hread)
    obtain ⟨hcolumn, rfl⟩ := run_lift_eq_ok.mp hlast
    have hids' := (hacross.codesIds (codesIds_writePlace hids hplace)).writeSymbolId p.symbol
    refine ⟨hfirst, (checkSigned_eq_ok.mp hcolumn).1, ?_⟩
    rw [← cursor_writePlace hplace]
    exact ih h' hids' (fun q hq => hps q (List.mem_cons_of_mem p hq)) hb' hrest hothers

/-! ## Whole regions -/

variable (settings) in
/-- The first strip distance and all instances are read and drawn. -/
theorem decodeInstances_writeInstances (h : Linked tape sink source) {bits : Nat}
    (hids : sink.CodesIds bits) (hbits : symbols.size ≤ 2 ^ bits) (hlog : logStrips ≤ 3)
    (hsymbols : Sided symbols) {ps : List Placement} (hps : ∀ p ∈ ps, Placeable symbols p)
    (hreadable : Readable logStrips symbols ⟨0, 0, none⟩ ps)
    (hstart : sink.writeNumber .deltaStrip 0 = .ok sink₁)
    (hw : writeInstances logStrips symbols ps ⟨0, 0, none⟩ sink₁ = .ok sink₂) (hon : sink₂.On tape)
    (region : Bitmap) :
    ∃ source', (decodeInstances (paramsOf settings logStrips) symbols ps.length region).run source =
      .ok ((Encoder.drawInstances symbols ps region, ps.toArray), source') := by
  have hproper := (Sink.leads_writeNumber hstart).proper h.proper
  obtain ⟨source₁, hcursor, h₁⟩ := start_writeNumber settings logStrips h hstart
    ((leads_writeInstances hw).on hproper hon)
  obtain ⟨source₂, hread, -⟩ := readInstances_writeInstances settings h₁ (hids.writeNumber hstart)
    hbits hlog hsymbols hps (behind_start logStrips) hreadable hw hon region #[]
  rw [Array.empty_append] at hread
  exact ⟨source₂, (run_bind_ok hcursor).trans hread⟩

/-- No other instances are read. -/
theorem readable_of_decodeInstances {code t : List UInt8}
    (h : Linked (.decisions code t) sink source) {bits : Nat} (hids : sink.CodesIds bits)
    (hbits : symbols.size ≤ 2 ^ bits) (hlog : logStrips ≤ 3) (hsymbols : Sided symbols)
    {ps : List Placement} (hps : ∀ p ∈ ps, Placeable symbols p)
    (hstart : sink.writeNumber .deltaStrip 0 = .ok sink₁)
    (hw : writeInstances logStrips symbols ps ⟨0, 0, none⟩ sink₁ = .ok sink₂)
    (hon : sink₂.On (.decisions code t)) {region : Bitmap}
    {result : (Bitmap × Array Placement) × Source}
    (hread : (decodeInstances (paramsOf settings logStrips) symbols ps.length region).run source =
      .ok result) : Readable logStrips symbols ⟨0, 0, none⟩ ps := by
  have hproper := (Sink.leads_writeNumber hstart).proper h.proper
  obtain ⟨source₁, hcursor, h₁⟩ := start_writeNumber settings logStrips h hstart
    ((leads_writeInstances hw).on hproper hon)
  exact readable_of_readInstances h₁ (hids.writeNumber hstart) hbits hlog hsymbols hps
    (behind_start logStrips) hw hon ((run_bind_ok hcursor).symm.trans hread)

end

end Bilevel.Text

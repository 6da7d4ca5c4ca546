import Bilevel.Proofs.Symbol.Collective

/-!
# Reading back classes of symbols

The symbols of one height are read as they were written. Among decisions the pixels of a symbol
follow its width; among codes they come in one bitmap behind all widths, which is cut up again.

## Main results

* `Symbol.readClass_writeWidths` — the widths, and the pixels if they are decisions.
* `Symbol.cut_joinFrom` — symbols side by side are cut apart.
* `Symbol.readClasses_writeClasses` — all classes of a dictionary.
-/

namespace Bilevel

open Bits Mq

namespace Symbol

/-! ## Widths -/

section

variable {tape : Tape} {sink sink' : Sink} {source : Source} {settings : DecodeSettings}
  {style : Style} {params : GenericParams}

theorem collects_eq (h : Linked tape sink source) (hstyle : style.aggregates = false) :
    collects style source = tape.collects := by
  cases h with
  | decisions => rfl
  | codes => simp [collects, Tape.collects, hstyle]

theorem leads_writeWidths {symbols : List Bitmap} {width : Nat}
    (h : writeWidths params symbols width sink = .ok sink') : sink.Leads sink' := by
  induction symbols generalizing sink width with
  | nil => exact Sink.leads_writeValue h
  | cons symbol symbols ih =>
    obtain ⟨sink'', hwidth, hrest⟩ := bind_eq_ok.mp h
    exact (Sink.leads_writeNumber hwidth).trans
      ((sink''.leads_writeBitmap params symbol).trans (ih hrest))

/-- The pixels of a symbol, if they are decisions. -/
theorem readPlain_writeBitmap (h : Linked tape sink source) (hcollects : tape.collects = false)
    (hcausal : ∀ p ∈ style.atPixels, p.causal = true) {symbol : Bitmap}
    (hsize : symbol.width * symbol.height ≤ settings.maxPixelCount)
    (hon : (sink.writeBitmap style.generic symbol).On tape) :
    ∃ source', readPlain settings style symbol.width symbol.height source = .ok (symbol, source') ∧
      Linked tape (sink.writeBitmap style.generic symbol) source' := by
  cases h with
  | @decisions code t e d c c' h hc =>
    obtain ⟨d', hd, h'⟩ := Generic.decodeBitmap_encodeBitmap h hcausal hon
    refine ⟨_, ?_, .decisions h' (hc.withGeneric _)⟩
    unfold readPlain
    simp only [Bitmap.create_eq hsize, Bind.bind, Except.bind, hc.generic, hd]
    rfl
  | codes => exact absurd hcollects (by simp [Tape.collects])

theorem writeBitmap_of_collects (h : Linked tape sink source) (hcollects : tape.collects = true)
    (params : GenericParams) (bitmap : Bitmap) : sink.writeBitmap params bitmap = sink := by
  cases h with
  | decisions => exact absurd hcollects (by simp [Tape.collects])
  | codes => rfl

theorem changeSize_sub {old new : Nat} (h : new ≤ 0xFFFFFFFF) :
    changeSize old ((new : Int) - old) = .ok new := by
  have hsum : (old : Int) + (new - old) = new := by omega
  unfold changeSize
  rw [hsum, if_pos (show FitsWord new by unfold FitsWord; omega)]
  rfl

/-- Reading the end of a class. -/
theorem readClass_none {source' : Source} {room : Nat} {c : Class} {symbols : Array Bitmap}
    (h : Source.readValue .deltaWidth source = .ok (none, source')) :
    readClass settings style room c symbols source = .ok ((c, symbols), source') := by
  cases room <;> rw [readClass, run_bind_ok h] <;> rfl

variable (settings) in
/-- Reading one symbol of a class, or at least its width. -/
theorem readClass_some {source' : Source} {width total : Nat} {c : Class} {delta : Int} (room : Nat)
    (symbols : Array Bitmap) (hstyle : style.aggregates = false)
    (h : Source.readValue .deltaWidth source = .ok (some delta, source'))
    (hwidth : changeSize c.width delta = .ok width)
    (htotal : checkWord (c.total + width) = .ok total) :
    readClass settings style (room + 1) c symbols source =
      if collects style source' then
        readClass settings style room ⟨c.height, width, total, c.widths.push width⟩ symbols source'
      else (do
        let symbol ← readPlain settings style width c.height
        readClass settings style room ⟨c.height, width, total, c.widths⟩ (symbols.push symbol) :
          Decoding (Class × Array Bitmap)) source' := by
  rw [readClass, run_bind_ok h]
  dsimp only
  rw [run_bind_lift hwidth, run_bind_lift htotal, run_bind_get, hstyle]
  split <;> rfl

variable (settings) in
/-- One symbol of a class was written, or at least its width. -/
theorem readClass_writeWidth (h : Linked tape sink source) (hstyle : style.aggregates = false)
    {c : Class} {width : Nat} (hold : c.width ≤ 0x40000000) (hnew : width ≤ 0x40000000)
    (htotal : c.total + width ≤ 0xFFFFFFFF)
    (hw : sink.writeNumber .deltaWidth (width - c.width) = .ok sink') (hon : sink'.On tape)
    (room : Nat) (symbols : Array Bitmap) :
    ∃ source', readClass settings style (room + 1) c symbols source =
        (if tape.collects then
          readClass settings style room ⟨c.height, width, c.total + width, c.widths.push width⟩
            symbols source'
        else (do
          let symbol ← readPlain settings style width c.height
          readClass settings style room ⟨c.height, width, c.total + width, c.widths⟩
            (symbols.push symbol) : Decoding (Class × Array Bitmap)) source') ∧
      Linked tape sink' source' := by
  obtain ⟨source', hread, h'⟩ := h.readValue
    (Integer.representable_some (n := width - c.width) (by omega))
    (Sink.writeValue_of_writeNumber hw) hon
  have hcheck : checkWord (c.total + width) = .ok (c.total + width) :=
    if_pos (show FitsWord _ by unfold FitsWord; omega)
  refine ⟨source', ?_, h'⟩
  rw [readClass_some settings room symbols hstyle hread (changeSize_sub (by omega)) hcheck,
    collects_eq h' hstyle]

/-- The symbols of a class are read back, or at least their widths. -/
theorem readClass_writeWidths (h : Linked tape sink source) (hstyle : style.aggregates = false)
    (hparams : tape.collects = false → params = style.generic)
    (hcausal : ∀ p ∈ style.atPixels, p.causal = true) {ss : List Bitmap} {room : Nat} (c : Class)
    (symbols : Array Bitmap) (hss : Readable settings c.height ss) (hroom : ss.length ≤ room)
    (hwidth : c.width ≤ 0x40000000) (htotal : c.total + totalWidth ss ≤ 0xFFFFFFFF)
    (hw : writeWidths params ss c.width sink = .ok sink') (hon : sink'.On tape) :
    ∃ c' source', readClass settings style room c symbols source =
        .ok ((c', if tape.collects then symbols else symbols ++ ss.toArray), source') ∧
      (c'.total = c.total + totalWidth ss ∧
        c'.widths = if tape.collects then c.widths ++ (ss.map (·.width)).toArray else c.widths) ∧
      Linked tape sink' source' := by
  induction ss generalizing sink source room c symbols with
  | nil =>
    obtain ⟨source', hread, h'⟩ := h.readValue Integer.representable_none hw hon
    exact ⟨c, source', by simp [readClass_none hread], ⟨rfl, by simp⟩, h'⟩
  | cons s ss ih =>
    obtain ⟨sink'', hnumber, hrest⟩ := bind_eq_ok.mp hw
    rw [totalWidth_cons] at htotal
    rw [List.length_cons] at hroom
    obtain ⟨room, rfl⟩ : ∃ n, room = n + 1 := ⟨room - 1, by omega⟩
    have hswidth := hss.width s List.mem_cons_self
    have hproper := (Sink.leads_writeNumber hnumber).proper h.proper
    have hleads := leads_writeWidths hrest
    have hleads' := sink''.leads_writeBitmap params s
    have honbitmap := hleads.on (hleads'.proper hproper) hon
    obtain ⟨source'', hstep, h''⟩ := readClass_writeWidth settings h hstyle hwidth hswidth
      (by omega) hnumber (hleads'.on hproper honbitmap) room symbols
    have hroom' : ss.length ≤ room := by omega
    have htotal' : c.total + s.width + totalWidth ss ≤ 0xFFFFFFFF := by omega
    rw [hstep]
    cases hcollects : tape.collects with
    | true =>
      rw [writeBitmap_of_collects h'' hcollects] at hrest
      obtain ⟨c', source', hrest', ⟨htotal'', hwidths⟩, h'⟩ := ih h''
        ⟨c.height, s.width, c.total + s.width, c.widths.push s.width⟩ symbols hss.tail hroom'
        hswidth htotal' hrest
      rw [hcollects] at hrest' hwidths
      refine ⟨c', source', hrest', ⟨?_, ?_⟩, h'⟩
      · rw [htotal'', totalWidth_cons, Nat.add_assoc]
      · rw [hwidths]
        simp
    | false =>
      obtain rfl := hparams hcollects
      obtain ⟨source', hplain, h'⟩ := readPlain_writeBitmap h'' hcollects hcausal
        (hss.pixels s List.mem_cons_self) honbitmap
      rw [hss.height s List.mem_cons_self] at hplain
      obtain ⟨c', source', hrest', ⟨htotal'', hwidths⟩, h'⟩ := ih h'
        ⟨c.height, s.width, c.total + s.width, c.widths⟩ (symbols.push s) hss.tail hroom'
        hswidth htotal' hrest
      rw [hcollects] at hrest' hwidths
      refine ⟨c', source', ?_, ⟨?_, hwidths⟩, h'⟩
      · rw [if_neg Bool.false_ne_true, run_bind_ok hplain, hrest']
        simp
      · rw [htotal'', totalWidth_cons, Nat.add_assoc]

/-! ## Classes -/

/-- What is needed of a class so that it is read back. -/
structure ReadableClass (settings : DecodeSettings) (rows : Nat) (symbols : List Bitmap) : Prop
    extends Readable settings rows symbols where
  rows_le : rows ≤ 0x40000000
  totalWidth_le : totalWidth symbols ≤ 0xFFFFFFFF
  size : totalWidth symbols * rows ≤ settings.maxPixelCount

theorem leads_writeClasses {classes : List (List Bitmap)} {height : Nat}
    (h : writeClasses params classes height sink = .ok sink') : sink.Leads sink' := by
  induction classes generalizing sink height with
  | nil =>
    obtain rfl := Except.ok.inj h
    exact .refl _
  | cons c classes ih =>
    cases c with
    | nil => exact ih h
    | cons first others =>
      obtain ⟨sink₁, hnumber, h⟩ := bind_eq_ok.mp h
      obtain ⟨sink₂, hwidths, h⟩ := bind_eq_ok.mp h
      obtain ⟨sink₃, hcollective, h⟩ := bind_eq_ok.mp h
      exact (Sink.leads_writeNumber hnumber).trans <| (leads_writeWidths hwidths).trans <|
        (leads_writeCollective hcollective).trans (ih h)

/-- The pixels of a class, if they come behind all widths. -/
theorem readCut_writeCollective (h : Linked tape sink source) (hcollects : tape.collects = true)
    {height : Nat} {c : List Bitmap} (hc : ReadableClass settings height c)
    (hw : writeCollective height c sink = .ok sink') (hon : sink'.On tape)
    (before : Array Bitmap) :
    ∃ collective source', readCollective settings (totalWidth c) height source =
        .ok (collective, source') ∧
      cut settings collective 0 (c.map (·.width)) before = .ok (before ++ c.toArray) ∧
      Linked tape sink' source' := by
  obtain ⟨source', hread, h'⟩ := readCollective_writeCollective h hcollects hc.size hw hon
  have hwhite : ∀ x' y', 0 ≤ x' → (Bitmap.blank (totalWidth c) height).get x' y' = false :=
    fun _ _ _ => Bitmap.get_blank ..
  exact ⟨_, source', hread, cut_joinFrom hc.toReadable hwhite (Nat.zero_add _).le before, h'⟩

/-- One class is read back. -/
theorem readClasses_class (limit : Nat) (h : Linked tape sink source) (hstyle : style.aggregates = false)
    (hparams : tape.collects = false → params = style.generic)
    (hcausal : ∀ p ∈ style.atPixels, p.causal = true) {height height' total : Nat}
    {c : List Bitmap} (hc : ReadableClass settings height' c) (hne : c ≠ [])
    (hheight : height ≤ 0x40000000) (before : Array Bitmap)
    (htotal : before.size + c.length ≤ total) {sink₁ sink₂ : Sink}
    (hnumber : sink.writeNumber .deltaHeight ((height' : Int) - height) = .ok sink₁)
    (hwidths : writeWidths params c 0 sink₁ = .ok sink₂)
    (hcollective : writeCollective height' c sink₂ = .ok sink') (hon : sink'.On tape) :
    ∃ source', readClasses settings style total (limit + 1) height before source =
        readClasses settings style total limit height' (before ++ c.toArray) source' ∧
      Linked tape sink' source' := by
  have hproper₁ := (Sink.leads_writeNumber hnumber).proper h.proper
  have hproper₂ := (leads_writeWidths hwidths).proper hproper₁
  have hon₂ := (leads_writeCollective hcollective).on hproper₂ hon
  have hheight' := hc.rows_le
  have hpos : 0 < c.length := List.length_pos_iff.mpr hne
  have hroom : c.length ≤ total - before.size := by omega
  obtain ⟨source₁, hread₁, h₁⟩ := h.readNumber (n := (height' : Int) - height) (by omega)
    (Sink.writeValue_of_writeNumber hnumber) ((leads_writeWidths hwidths).on hproper₁ hon₂)
  obtain ⟨c', source₂, hread₂, ⟨htotal', hwidths'⟩, h₂⟩ := readClass_writeWidths h₁ hstyle hparams
    hcausal ⟨height', 0, 0, #[]⟩ before hc.toReadable hroom (Nat.zero_le _)
    (by simpa using hc.totalWidth_le) hwidths hon₂
  have hstep : readClasses settings style total (limit + 1) height before source =
      (readClass settings style (total - before.size) ⟨height', 0, 0, #[]⟩ before >>= fun r => do
        if collects style (← get) then
          let collective ← readCollective settings r.1.total height'
          readClasses settings style total limit height'
            (← cut settings collective 0 r.1.widths.toList r.2)
        else readClasses settings style total limit height' r.2) source₁ := by
    rw [readClasses, if_neg (by omega), run_bind_ok hread₁,
      run_bind_lift (changeSize_sub (Nat.le_trans hheight' (by decide)))]
  rw [hstep, run_bind_ok hread₂, run_bind_get, collects_eq h₂ hstyle]
  cases hcollects : tape.collects with
  | true =>
    rw [hcollects] at hwidths'
    obtain ⟨collective, source', hread, hcut, h'⟩ := readCut_writeCollective h₂ hcollects hc
      hcollective hon before
    refine ⟨source', ?_, h'⟩
    have htotal'' : c'.total = totalWidth c := htotal'.trans (Nat.zero_add _)
    have hlist : c'.widths.toList = c.map (·.width) := by
      rw [hwidths']
      simp
    rw [if_pos rfl, htotal'', run_bind_ok hread, hlist]
    exact run_bind_lift hcut
  | false =>
    obtain rfl := writeCollective_of_decisions h₂ hcollects hcollective
    exact ⟨source₂, rfl, h₂⟩

/-- All symbols are read back, class by class. -/
theorem readClasses_writeClasses (h : Linked tape sink source) (hstyle : style.aggregates = false)
    (hparams : tape.collects = false → params = style.generic)
    (hcausal : ∀ p ∈ style.atPixels, p.causal = true) {classes : List (List Bitmap)}
    (hclasses : ∀ c ∈ classes, ∃ first others, c = first :: others ∧
      ReadableClass settings first.height c) {height limit : Nat} (hheight : height ≤ 0x40000000)
    (before : Array Bitmap) (hw : writeClasses params classes height sink = .ok sink')
    (hon : sink'.On tape) (hlimit : tape.limit ≤ limit + sink.spent) :
    ∃ source', readClasses settings style (before.size + classes.flatten.length) limit height before
        source = .ok (before ++ classes.flatten.toArray, source') ∧
      Linked tape sink' source' := by
  induction classes generalizing sink source height limit before with
  | nil =>
    obtain rfl := Except.ok.inj hw
    have hspent := Sink.spent_lt_limit hon
    obtain ⟨limit, rfl⟩ : ∃ l, limit = l + 1 := ⟨limit - 1, by omega⟩
    refine ⟨source, ?_, h⟩
    rw [readClasses, if_pos (by simp)]
    simpa using run_pure
  | cons c classes ih =>
    obtain ⟨first, others, rfl, hc⟩ := hclasses c List.mem_cons_self
    obtain ⟨sink₁, hnumber, hw⟩ := bind_eq_ok.mp hw
    obtain ⟨sink₂, hwidths, hw⟩ := bind_eq_ok.mp hw
    obtain ⟨sink₃, hcollective, hw⟩ := bind_eq_ok.mp hw
    have hproper₁ := (Sink.leads_writeNumber hnumber).proper h.proper
    have hleads := (leads_writeWidths hwidths).trans (leads_writeCollective hcollective)
    have hproper₃ := hleads.proper hproper₁
    have hon₃ := (leads_writeClasses hw).on hproper₃ hon
    have hspent := Sink.spent_lt_limit hon₃
    have hspent₁ := Sink.spent_lt_writeValue h.proper (Sink.writeValue_of_writeNumber hnumber)
    have hspent₃ := hleads.spent_le hproper₁
    obtain ⟨limit, rfl⟩ : ∃ l, limit = l + 1 := ⟨limit - 1, by omega⟩
    have hlimit₃ : tape.limit ≤ limit + sink₃.spent := by omega
    have htotal : before.size + (first :: others).length ≤
        before.size + ((first :: others) :: classes).flatten.length := by simp
    obtain ⟨source₃, hread, h₃⟩ := readClasses_class limit h hstyle hparams hcausal hc
      (List.cons_ne_nil _ _) hheight before htotal hnumber hwidths hcollective hon₃
    obtain ⟨source', hrest, h'⟩ := ih h₃ (fun c' hc' => hclasses c' (List.mem_cons_of_mem _ hc'))
      hc.rows_le (before ++ (first :: others).toArray) hw hlimit₃
    refine ⟨source', ?_, h'⟩
    have hsize : (before ++ (first :: others).toArray).size + classes.flatten.length =
        before.size + ((first :: others) :: classes).flatten.length := by
      simp
      omega
    rw [hsize] at hrest
    rw [hread, hrest]
    simp

end

end Symbol
end Bilevel

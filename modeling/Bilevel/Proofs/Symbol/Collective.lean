import Bilevel.Proofs.Region.Data
import Bilevel.Proofs.Symbol.Link
import Bilevel.Symbol.Encode

/-!
# Reading back symbols side by side

Among Huffman codes, the symbols of one height come in one bitmap, side by side. It has the pixels
of every symbol in the columns of that symbol, so that it can be cut up again.

## Main results

* `Symbol.cut_joinFrom` — symbols side by side are cut apart.
* `Symbol.readCollective_writeCollective` — the bitmap of a class is read back.
-/

namespace Bilevel

open Bits Mq

/-- Whether the pixels of symbols come behind all their widths. -/
def Tape.collects : Tape → Bool
  | .decisions .. => false
  | .codes .. => true

namespace Symbol

/-- What is needed of the symbols of one height so that they are read back. -/
structure Readable (settings : DecodeSettings) (height : Nat) (symbols : List Bitmap) : Prop where
  height : ∀ s ∈ symbols, s.height = height
  width : ∀ s ∈ symbols, s.width ≤ 0x40000000
  pixels : ∀ s ∈ symbols, s.width * s.height ≤ settings.maxPixelCount

theorem Readable.tail {settings : DecodeSettings} {height : Nat} {symbol : Bitmap}
    {symbols : List Bitmap} (h : Readable settings height (symbol :: symbols)) :
    Readable settings height symbols :=
  ⟨fun s hs => h.height s (List.mem_cons_of_mem _ hs),
    fun s hs => h.width s (List.mem_cons_of_mem _ hs),
    fun s hs => h.pixels s (List.mem_cons_of_mem _ hs)⟩

/-- The width of symbols side by side. -/
def totalWidth (symbols : List Bitmap) : Nat := (symbols.map (·.width)).sum

theorem totalWidth_cons (symbol : Bitmap) (symbols : List Bitmap) :
    totalWidth (symbol :: symbols) = symbol.width + totalWidth symbols := by
  simp [totalWidth]

theorem foldl_width (symbols : List Bitmap) (start : Nat) :
    symbols.foldl (· + ·.width) start = start + totalWidth symbols := by
  induction symbols generalizing start with
  | nil => rfl
  | cons symbol symbols ih => rw [List.foldl_cons, ih, totalWidth_cons, Nat.add_assoc]

/-! ## Joining and cutting -/

section

variable {settings : DecodeSettings} {bitmap : Bitmap} {symbols : List Bitmap} {x : Nat}

@[simp] theorem width_joinFrom : (joinFrom x bitmap symbols).width = bitmap.width := by
  induction symbols generalizing x bitmap with
  | nil => rfl
  | cons symbol symbols ih => rw [joinFrom, ih, Bitmap.width_combine]

@[simp] theorem height_joinFrom : (joinFrom x bitmap symbols).height = bitmap.height := by
  induction symbols generalizing x bitmap with
  | nil => rfl
  | cons symbol symbols ih => rw [joinFrom, ih, Bitmap.height_combine]

/-- Drawing a symbol leaves the columns to the left of it alone. -/
theorem get_combine_left {symbol : Bitmap} {x' : Nat} (h : x' < x) (y' : Nat) :
    (bitmap.combine symbol x 0 .or).get x' y' = bitmap.get x' y' := by
  rw [Bitmap.get_combine, if_neg]
  rintro ⟨-, ⟨hle, -⟩, -⟩
  omega

theorem get_joinFrom_left {x' : Nat} (h : x' < x) (y' : Nat) :
    (joinFrom x bitmap symbols).get x' y' = bitmap.get x' y' := by
  induction symbols generalizing x bitmap with
  | nil => rfl
  | cons symbol symbols ih =>
    rw [joinFrom, ih (Nat.lt_add_right _ h), get_combine_left h]

/-- In the columns of a symbol that is drawn onto white there are its pixels. -/
theorem get_combine_at {symbol : Bitmap} (hwhite : ∀ x' y', x ≤ x' → bitmap.get x' y' = false)
    (hwidth : x + symbol.width ≤ bitmap.width) (hheight : symbol.height = bitmap.height)
    {i j : Nat} : (bitmap.combine symbol x 0 .or).get (x + i) j = symbol.get i j := by
  rw [Bitmap.get_combine, hwhite _ _ (Nat.le_add_right x i)]
  split
  · have hcolumn : (((x + i : Nat) : Int) - x).toNat = i := by omega
    have hrow : ((j : Int) - 0).toNat = j := by omega
    rw [hcolumn, hrow]
    rfl
  · next hnot =>
    refine (Bitmap.get_eq_false ?_).symm
    unfold Bitmap.Under at hnot
    omega

/-- Symbols that were joined are cut apart. -/
theorem cut_joinFrom (hsymbols : Readable settings bitmap.height symbols)
    (hwhite : ∀ x' y', x ≤ x' → bitmap.get x' y' = false)
    (hwidth : x + totalWidth symbols ≤ bitmap.width) (before : Array Bitmap) :
    cut settings (joinFrom x bitmap symbols) x (symbols.map (·.width)) before =
      .ok (before ++ symbols.toArray) := by
  induction symbols generalizing x bitmap before with
  | nil => simp [cut]
  | cons symbol symbols ih =>
    rw [totalWidth_cons] at hwidth
    have hheight := hsymbols.height symbol List.mem_cons_self
    have hpixels := hsymbols.pixels symbol List.mem_cons_self
    have hpixel {i j : Nat} : (bitmap.combine symbol x 0 .or).get (x + i) j = symbol.get i j :=
      get_combine_at hwhite (by omega) hheight
    have hwindow : (joinFrom x bitmap (symbol :: symbols)).window x 0 symbol.width bitmap.height =
        symbol := by
      refine Bitmap.ext_get (by simp) (by simp [hheight]) fun i j => ?_
      rw [Bitmap.get_window, Nat.zero_add, joinFrom]
      by_cases hin : i < symbol.width ∧ j < symbol.height
      · rw [get_joinFrom_left (Nat.add_lt_add_left hin.1 x), hpixel]
        simp [hin, ← hheight]
      · rw [Bitmap.get_eq_false (b := symbol) (by omega), ← hheight]
        rcases Decidable.not_and_iff_not_or_not.mp hin with h | h <;> simp [h]
    have hcrop : (joinFrom x bitmap (symbol :: symbols)).crop settings.maxPixelCount x 0
        symbol.width bitmap.height = .ok symbol := by
      unfold Bitmap.crop
      rw [hwindow, if_neg (by rw [← hheight]; omega)]
    have hright : ∀ x' y', x + symbol.width ≤ x' →
        (bitmap.combine symbol x 0 .or).get x' y' = false := by
      intro x' y' hx'
      obtain ⟨i, rfl⟩ := Nat.exists_eq_add_of_le (Nat.le_trans (Nat.le_add_right _ _) hx')
      rw [hpixel, Bitmap.get_eq_false (by omega)]
    have htail : Readable settings (bitmap.combine symbol x 0 .or).height symbols := by
      simpa using hsymbols.tail
    have hrest := ih htail hright (by rw [Bitmap.width_combine]; omega) (before.push symbol)
    rw [List.map_cons, cut, height_joinFrom, hcrop]
    change cut settings (joinFrom (x + symbol.width) (bitmap.combine symbol x 0 .or) symbols) _ _ _ = _
    rw [hrest]
    simp

end

/-! ## The bitmap of a class -/

section

variable {tape : Tape} {sink sink' : Sink} {source : Source} {settings : DecodeSettings}
  {height : Nat} {symbols : List Bitmap}

theorem writeCollective_of_decisions (h : Linked tape sink source)
    (hcollects : tape.collects = false) (hw : writeCollective height symbols sink = .ok sink') :
    sink' = sink := by
  cases h with
  | decisions => exact (Except.ok.inj hw).symm
  | codes => exact absurd hcollects (by simp [Tape.collects])

/-- What is written for the bitmap of a class: its size, and whole bytes. -/
theorem writeCollective_codes {w : Writer} {tables : QuantityTables}
    (h : writeCollective height symbols (.codes w tables) = .ok sink') :
    ∃ w', (tables .collectiveSize).encode w (some 0) = .ok w' ∧
      sink' = .codes (w'.align.writeBytes
        (joinFrom 0 (.blank (totalWidth symbols) height) symbols).data) tables := by
  unfold writeCollective at h
  simp only [foldl_width, Nat.zero_add] at h
  split at h
  · exact absurd h (by simp)
  · obtain ⟨w', hw', h⟩ := bind_eq_ok.mp h
    exact ⟨w', hw', (Except.ok.inj h).symm⟩

theorem leads_writeCollective (h : writeCollective height symbols sink = .ok sink') :
    sink.Leads sink' := by
  cases sink with
  | decisions e contexts =>
    obtain rfl := Except.ok.inj h
    exact .refl _
  | codes w tables =>
    obtain ⟨w', hw', rfl⟩ := writeCollective_codes h
    refine (Sink.leads_encode hw').trans ⟨rfl, fun hvalid => ⟨Writer.valid_of_aligned rfl, ?_⟩⟩
    rw [Writer.bits_writeBytes rfl]
    exact (Writer.bits_align hvalid).trans (List.prefix_append _ _)

theorem readCollective_writeCollective (h : Linked tape sink source)
    (hcollects : tape.collects = true) (hsize : totalWidth symbols * height ≤ settings.maxPixelCount)
    (hw : writeCollective height symbols sink = .ok sink') (hon : sink'.On tape) :
    ∃ source', readCollective settings (totalWidth symbols) height source =
        .ok (joinFrom 0 (.blank (totalWidth symbols) height) symbols, source') ∧
      Linked tape sink' source' := by
  cases h with
  | decisions => exact absurd hcollects (by simp [Tape.collects])
  | @codes data w tables ids hvalid hsound =>
    obtain ⟨w', hw', rfl⟩ := writeCollective_codes hw
    generalize hcollective : joinFrom 0 (.blank (totalWidth symbols) height) symbols = collective
      at hon ⊢
    have hwidth : collective.width = totalWidth symbols := by rw [← hcollective]; exact width_joinFrom
    have hheight : collective.height = height := by rw [← hcollective]; exact height_joinFrom
    obtain ⟨bits, hvalid', hbits, hreads⟩ := Huffman.Table.exists_reads_decode
      (hsound .collectiveSize) hvalid (by simp [FitsSigned]) hw'
    have hbytes := Writer.bits_writeBytes (w := w'.align) rfl collective.data
    have honbytes : (w'.align.writeBytes collective.data).bits <+: toList data := hon
    have honalign : w'.align.bits <+: toList data := by
      rw [hbytes] at honbytes
      exact (List.prefix_append _ _).trans honbytes
    have hnumber := (Huffman.Table.reads_decodeValue hreads).run_writer False.elim hbits
      ((Writer.bits_align hvalid').trans honalign)
    have halign : Reader.align ⟨data, w'.length⟩ = .ok ((), ⟨data, w'.align.length⟩) := by
      rw [Reader.align, Writer.length_align hvalid']
    have hpixels := (readsBytes_readBytes collective.data).run_writer (w := w'.align)
      (fun _ => ⟨w'.data.size, rfl⟩) hbytes honbytes
    rw [collective.size_data, hwidth, hheight] at hpixels
    have hpacked := collective.ofPacked_data
    rw [hwidth, hheight] at hpacked
    refine ⟨.codes ⟨data, (w'.align.writeBytes collective.data).length⟩ tables ids, ?_,
      .codes (Writer.valid_of_aligned rfl) hsound⟩
    unfold readCollective
    simp only [Bind.bind, Except.bind, hnumber, halign, hpixels, hpacked, ne_eq, not_true_eq_false,
      if_false, Nat.not_lt.mpr hsize]
    rfl

end

end Symbol
end Bilevel

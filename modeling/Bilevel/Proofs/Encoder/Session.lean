import Bilevel.Proofs.Encoder.Segments
import Bilevel.Proofs.Huffman.Custom
import Bilevel.Proofs.Symbol.Dictionary
import Bilevel.Proofs.Text.Region

/-!
# Sessions with an encoder

A session is a sequence of calls to an encoder, in any order; some of them may be refused. It keeps
what the calls gave back: the dictionaries that were written, and the bitmaps of the pages that
ended.

## Main definitions

* `Call` — a call with its arguments.
* `Session.step`, `Session.run` — what comes of calls.
* `Call.InRange`, `Session.Admissible` — calls whose arguments stay within the bounds that decoders
  have.
* `Numbered`, `Session.Counted` — how the numbers of pages and segments go together.
-/

namespace Bilevel.Encoder

/-- A call to an encoder. -/
inductive Call where
  | startPage (width height : Nat)
  | endPage
  | generic (bitmap : Bitmap) (x y : Nat) (options : GenericOptions)
  | refinement (bitmap : Bitmap) (x y : Nat) (options : RefinementOptions)
  | dictionary (symbols : List Bitmap) (coding : Symbol.Coding) (exports : Option (List Bool))
  | codeTable (table : Huffman.CodeTable)
  | text (dictionaries : List WrittenDictionary) (instances : List Text.Placement)
      (info : RegionInfo) (logStrips : Nat)

/-- An encoder, and what it gave back so far. -/
structure Session where
  encoder : Encoder
  /-- The dictionaries that were written. -/
  dictionaries : List WrittenDictionary := []
  /-- The bitmaps of the pages that ended. -/
  ended : List Bitmap := []

/-- The bitmap of the page that was open before and isn't open any more. -/
def closedPage (before after : Encoder) : List Bitmap :=
  if after.page.map (·.number) = before.page.map (·.number) then [] else before.pageBitmap?.toList

@[simp] theorem closedPage_self (e : Encoder) : closedPage e e = [] := if_pos rfl

/-- A page that is closed, or followed by another. -/
theorem closedPage_of_ne {before after : Encoder}
    (h : ∀ canvas ∈ before.page, after.page.map (·.number) ≠ some canvas.number) :
    closedPage before after = before.pageBitmap?.toList := by
  unfold closedPage pageBitmap?
  cases hpage : before.page with
  | none => simp
  | some canvas => exact if_neg (h canvas hpage)

namespace Session

/-- A session in which nothing was called yet. -/
def start (first : Nat) : Session := { encoder := startingAt first }

/-- The session behind one more call, whether it is refused or not. -/
def step (s : Session) : Call → Session
  | .startPage width height =>
    let e := ((startPage width height).run s.encoder).2
    { s with encoder := e, ended := s.ended ++ closedPage s.encoder e }
  | .endPage =>
    let (result, e) := endPage.run s.encoder
    { s with encoder := e, ended := s.ended ++ (result.toOption.bind id).toList }
  | .generic bitmap x y options =>
    { s with encoder := ((addGeneric bitmap x y options).run s.encoder).2 }
  | .refinement bitmap x y options =>
    { s with encoder := ((addRefinement bitmap x y options).run s.encoder).2 }
  | .dictionary symbols coding exports =>
    let (result, e) := (addDictionary symbols coding exports).run s.encoder
    { s with encoder := e, dictionaries := s.dictionaries ++ result.toOption.toList }
  | .codeTable table => { s with encoder := ((addCodeTable table).run s.encoder).2 }
  | .text dictionaries instances info logStrips =>
    { s with encoder := ((addText dictionaries instances info logStrips).run s.encoder).2 }

theorem step_endPage (s : Session) : s.step .endPage =
    ⟨(endPage.run s.encoder).2, s.dictionaries, s.ended ++ s.encoder.pageBitmap?.toList⟩ := by
  have hrun : endPage.run s.encoder = (.ok s.encoder.pageBitmap?, (endPage.run s.encoder).2) :=
    Prod.ext (run_endPage_fst s.encoder) rfl
  unfold step
  rw [hrun]
  rfl

/-- The session behind some calls. -/
def run (s : Session) (calls : List Call) : Session := calls.foldl step s

end Session

/-! ## Bounds -/

/-- A region that isn't too large and ends in the range of coordinates. -/
structure Bounded (width height x y : Nat) : Prop where
  pixels : width * height ≤ 0x40000000
  right : x + width ≤ 0xFFFFFFFF
  bottom : y + height ≤ 0xFFFFFFFF

instance (width height x y : Nat) : Decidable (Bounded width height x y) :=
  decidable_of_iff (width * height ≤ 0x40000000 ∧ x + width ≤ 0xFFFFFFFF ∧ y + height ≤ 0xFFFFFFFF)
    ⟨fun h => ⟨h.1, h.2.1, h.2.2⟩, fun h => ⟨h.pixels, h.right, h.bottom⟩⟩

/-- A symbol whose sides leave room for the coordinates of its instances. -/
def Small (symbol : Bitmap) : Prop := symbol.width < 0x20000000 ∧ symbol.height < 0x20000000

instance (symbol : Bitmap) : Decidable (Small symbol) := inferInstanceAs (Decidable (_ ∧ _))

/-- A coordinate that leaves room for the sides of a symbol. -/
def Near (n : Int) : Prop := -0x20000000 ≤ n ∧ n < 0x20000000

instance (n : Int) : Decidable (Near n) := inferInstanceAs (Decidable (_ ∧ _))

namespace Call

/-- The data of the segment that a call writes, unless it is refused. -/
def data? (e : Encoder) : Call → Option Bytes
  | .startPage width height => some (newPage width height).bytes
  | .endPage => some #[]
  | .generic bitmap x y options => some (genericData bitmap x y options)
  | .refinement bitmap x y options => e.page.map (refinementData bitmap x y options)
  | .dictionary symbols coding exports =>
    (Symbol.encode symbols (flagsOf symbols exports) coding).toOption.map (·.data)
  | .codeTable table => table.write.toOption
  | .text dictionaries instances info logStrips =>
    (Text.encodeRegion info (symbolsOf dictionaries) instances logStrips).toOption

/-- Whether the arguments of a call stay within bounds. Text uses dictionaries of the session. -/
def InRange (s : Session) : Call → Prop
  | .startPage width height => width * height ≤ 0x40000000
  | .endPage => True
  | .generic bitmap x y options => Bounded bitmap.width bitmap.height x y ∧
      ∀ pixels ∈ options.atPixels, ∀ p ∈ pixels, p.Fits
  | .refinement bitmap x y _ => Bounded bitmap.width bitmap.height x y
  | .dictionary symbols _ _ => Symbol.Storable symbols ∧ ∀ symbol ∈ symbols, Small symbol
  | .codeTable table => (FitsSigned (table.low - 1) ∧ FitsSigned table.low) ∧
      (Huffman.Table.build table.lines).isOk
  | .text dictionaries instances info _ => Bounded info.width info.height info.x info.y ∧
      ((∀ d ∈ dictionaries, d ∈ s.dictionaries) ∧ dictionaries.length < 2 ^ 29) ∧
      ∀ p ∈ instances, Near p.x ∧ Near p.y

instance (s : Session) : (call : Call) → Decidable (call.InRange s)
  | .startPage .. => inferInstanceAs (Decidable (_ ≤ _))
  | .endPage => inferInstanceAs (Decidable True)
  | .generic .. => inferInstanceAs (Decidable (_ ∧ _))
  | .refinement .. => inferInstanceAs (Decidable (Bounded ..))
  | .dictionary .. => inferInstanceAs (Decidable (_ ∧ _))
  | .codeTable .. => inferInstanceAs (Decidable (_ ∧ _))
  | .text .. => inferInstanceAs (Decidable (_ ∧ _))

end Call

/-- Calls whose arguments stay within bounds and whose data has a length that can be written. -/
def Session.Admissible (s : Session) : List Call → Prop
  | [] => True
  | call :: calls => (call.InRange s ∧ ∀ data ∈ call.data? s.encoder, data.size < 0xFFFFFFFF) ∧
      (s.step call).Admissible calls

instance Session.decidableAdmissible : (s : Session) → (calls : List Call) →
    Decidable (s.Admissible calls)
  | _, [] => inferInstanceAs (Decidable True)
  | s, call :: calls =>
    have := decidableAdmissible (s.step call) calls
    inferInstanceAs (Decidable (_ ∧ _))

/-! ## Numbers -/

section

variable {e : Encoder} {canvas : Canvas} {kind : SegmentKind} {referred : List Nat} {data : Bytes}

/-- A number is left for the end of the open page, which is the last of the pages that have begun;
they are numbered from 1 on. -/
structure Numbered (e : Encoder) : Prop where
  next_le : e.nextSegment ≤ 0xFFFFFFFF
  room : e.page.isSome → e.nextSegment < 0xFFFFFFFF
  number : ∀ canvas ∈ e.page, canvas.number = e.pageCount
  number_pos : ∀ canvas ∈ e.page, 0 < canvas.number
  pageCount_le : e.pageCount ≤ 0xFFFFFFFF

theorem numbered_startingAt {first : Nat} (h : first ≤ 0xFFFFFFFF) :
    (startingAt first).Numbered where
  next_le := h
  room hopen := absurd hopen Bool.false_ne_true
  number _ hcanvas := absurd hcanvas (Option.not_mem_none _)
  number_pos _ hcanvas := absurd hcanvas (Option.not_mem_none _)
  pageCount_le := Nat.zero_le _

namespace Numbered

theorem canvas_number_le (h : e.Numbered) (hpage : e.page = some canvas) :
    canvas.number ≤ 0xFFFFFFFF :=
  (h.number canvas hpage).trans_le h.pageCount_le

theorem pageNumber_le (h : e.Numbered) : e.pageNumber ≤ 0xFFFFFFFF := by
  unfold pageNumber
  cases hpage : e.page with
  | none => exact Nat.zero_le _
  | some canvas => exact h.canvas_number_le hpage

/-- As long as a page is open, a segment leaves a number for its end. -/
theorem next_lt (h : ¬e.Refuses kind referred data) (hkind : kind ≠ .endOfPage)
    (hopen : e.page.isSome) : e.nextSegment + 1 < 0xFFFFFFFF := by
  have hnext := nextSegment_lt_of_not_refuses h
  have hneeded : e.numbersNeeded kind = 2 := by
    unfold numbersNeeded
    split
    · exact absurd rfl hkind
    · rfl
    · exact if_pos hopen
  omega

/-- A segment that neither starts nor ends a page. -/
theorem append (h : e.Numbered) (hrefuses : ¬e.Refuses kind referred data)
    (hkind : kind ≠ .endOfPage) {segment : Segment} {page : Option Canvas}
    (hpage : page.map (·.number) = e.page.map (·.number)) :
    Numbered { e.append segment with page := page } := by
  have hsame : ∀ c ∈ page, ∃ canvas ∈ e.page, canvas.number = c.number := fun c hc =>
    Option.map_eq_some_iff.mp (hpage.symm.trans (Option.map_eq_some_iff.mpr ⟨c, hc, rfl⟩))
  refine ⟨?_, fun hopen => ?_, fun c hc => ?_, fun c hc => ?_, h.pageCount_le⟩
  · have := nextSegment_lt_of_not_refuses hrefuses
    have := e.numbersNeeded_pos kind
    unfold Encoder.append
    dsimp only
    omega
  · refine next_lt hrefuses hkind ?_
    rw [← Option.isSome_map (f := (·.number)), ← hpage, Option.isSome_map]
    exact hopen
  · obtain ⟨canvas, hcanvas, hnumber⟩ := hsame c hc
    exact hnumber.symm.trans (h.number canvas hcanvas)
  · obtain ⟨canvas, hcanvas, hnumber⟩ := hsame c hc
    exact hnumber ▸ h.number_pos canvas hcanvas

/-- The end of the open page. -/
theorem ended (h : e.Numbered) (hpage : e.page = some canvas) :
    (e.closed.append (e.closed.endSegment canvas)).Numbered := by
  have hroom : e.nextSegment < 0xFFFFFFFF := h.room (hpage ▸ rfl)
  constructor <;> simp only [append_nextSegment, append_pageCount, append_page, closed_nextSegment,
    closed_pageCount, closed_page]
  · exact hroom
  · exact fun hopen => absurd hopen Bool.false_ne_true
  · exact fun _ hcanvas => absurd hcanvas (Option.not_mem_none _)
  · exact fun _ hcanvas => absurd hcanvas (Option.not_mem_none _)
  · exact h.pageCount_le

/-- The start of a page. -/
theorem opened {width height : Nat} (hcount : e.pageCount < 0xFFFFFFFF)
    (hrefuses : ¬e.Refuses .pageInformation [] (newPage width height).bytes) :
    (e.opened width height).Numbered := by
  have hnext : e.nextSegment + 2 ≤ 0xFFFFFFFF := nextSegment_lt_of_not_refuses hrefuses
  have hroom : e.nextSegment + 1 < 0xFFFFFFFF := by omega
  refine ⟨hroom.le, fun _ => hroom, fun c hc => ?_, fun c hc => ?_, hcount⟩
  · rw [← Option.some.inj hc]
    rfl
  · rw [← Option.some.inj hc]
    exact Nat.succ_pos _

end Numbered

end

namespace Session

/-- A number is left for the end of the open page, pages are numbered from 1 on, and dictionaries
are those of earlier segments, with symbols whose sides fit signed numbers. -/
structure Counted (s : Session) : Prop where
  next_le : s.encoder.nextSegment ≤ 0xFFFFFFFF
  room : s.encoder.page.isSome → s.encoder.nextSegment < 0xFFFFFFFF
  number : ∀ canvas ∈ s.encoder.page, canvas.number = s.encoder.pageCount
  pageCount : s.encoder.pageCount = s.ended.length + s.encoder.page.toList.length
  pageCount_le : s.encoder.pageCount ≤ 0xFFFFFFFF
  earlier : ∀ d ∈ s.dictionaries, d.segment < s.encoder.nextSegment
  sides : ∀ d ∈ s.dictionaries, Text.Sided d.symbols

theorem counted_start {first : Nat} (h : first ≤ 0xFFFFFFFF) : (start first).Counted where
  next_le := h
  room h := absurd h Bool.false_ne_true
  number _ h := absurd h (by simp [start, startingAt])
  pageCount := rfl
  pageCount_le := Nat.zero_le _
  earlier _ h := absurd h List.not_mem_nil
  sides _ h := absurd h List.not_mem_nil

namespace Counted

variable {s : Session} {e : Encoder} {canvas : Canvas} {kind : SegmentKind} {referred : List Nat}
  {data : Bytes}

/-- The number of the open page. -/
theorem canvas_number (h : s.Counted) (hpage : s.encoder.page = some canvas) :
    canvas.number = s.ended.length + 1 := by
  have hcount := h.pageCount
  rw [hpage] at hcount
  exact (h.number canvas hpage).trans hcount

theorem numbered (h : s.Counted) : s.encoder.Numbered :=
  ⟨h.next_le, h.room, h.number, fun _ hcanvas => h.canvas_number hcanvas ▸ Nat.succ_pos _,
    h.pageCount_le⟩

/-- What is counted behind a segment, if the numbers are as they have to be. -/
theorem of_numbered (h : s.Counted) {after : Encoder} {ended : List Bitmap}
    (hafter : after.Numbered) (hcount : after.pageCount = ended.length + after.page.toList.length)
    (hnext : s.encoder.nextSegment ≤ after.nextSegment) :
    Counted ⟨after, s.dictionaries, ended⟩ where
  next_le := hafter.next_le
  room := hafter.room
  number := hafter.number
  pageCount := hcount
  pageCount_le := hafter.pageCount_le
  earlier d hd := (h.earlier d hd).trans_le hnext
  sides := h.sides

/-- A segment that neither starts nor ends a page. -/
theorem append (h : s.Counted) (hrefuses : ¬s.encoder.Refuses kind referred data)
    (hkind : kind ≠ .endOfPage) {segment : Segment} {page : Option Canvas}
    (hpage : page.map (·.number) = s.encoder.page.map (·.number)) :
    Counted { s with encoder := { s.encoder.append segment with page := page } } := by
  have hcount : s.encoder.pageCount = s.ended.length + page.toList.length := by
    have hlength := congrArg (fun o : Option Nat => o.toList.length) hpage
    simp only [Option.length_toList, Option.isSome_map] at hlength
    rw [h.pageCount, Option.length_toList, Option.length_toList, hlength]
  exact h.of_numbered (h.numbered.append hrefuses hkind hpage) hcount (Nat.le_succ _)

/-- A dictionary that was written. -/
theorem stored (h : s.Counted) {d : WrittenDictionary} {dictionaries : List WrittenDictionary}
    (hstored : dictionaries = s.dictionaries ++ [d]) (hearlier : d.segment < s.encoder.nextSegment)
    (hsides : Text.Sided d.symbols) :
    Counted { s with dictionaries := dictionaries } := by
  subst hstored
  refine ⟨h.next_le, h.room, h.number, h.pageCount, h.pageCount_le, fun d' hd => ?_, fun d' hd => ?_⟩
  · rcases List.mem_append.mp hd with hd | hd
    · exact h.earlier d' hd
    · rw [List.mem_singleton.mp hd]
      exact hearlier
  · rcases List.mem_append.mp hd with hd | hd
    · exact h.sides d' hd
    · rw [List.mem_singleton.mp hd]
      exact hsides

/-- The end of the open page. -/
theorem ended (h : s.Counted) (hpage : s.encoder.page = some canvas) :
    Counted ⟨s.encoder.closed.append (s.encoder.closed.endSegment canvas), s.dictionaries,
      s.ended ++ [canvas.bitmap]⟩ := by
  have hcount := h.pageCount
  rw [hpage] at hcount
  exact h.of_numbered (h.numbered.ended hpage) (by simpa using hcount) (Nat.le_succ _)

/-- The start of a page while none is open. -/
theorem opened (h : s.Counted) (hpage : s.encoder.page = none) {width height : Nat}
    (hcount : s.encoder.pageCount < 0xFFFFFFFF)
    (hrefuses : ¬s.encoder.Refuses .pageInformation [] (newPage width height).bytes) :
    Counted { s with encoder := s.encoder.opened width height } := by
  have hpages := h.pageCount
  rw [hpage] at hpages
  exact h.of_numbered (Numbered.opened hcount hrefuses) (congrArg (· + 1) hpages) (Nat.le_succ _)

end Counted
end Session
end Bilevel.Encoder

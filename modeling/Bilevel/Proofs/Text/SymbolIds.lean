import Bilevel.Proofs.Huffman.Canonical
import Bilevel.Text.SymbolIds

/-!
# Code word lengths in runs

The lengths of the code words for symbol numbers are stored in runs, which are Huffman coded
themselves. Whatever runs are written, they are read back as the lengths that they stand for. Runs
are read only as long as lengths are missing; a run that has too many of them is an error, and so is
one that repeats the last length where there is none.

## Main definitions

* `Run`, `expand` — runs, and the lengths that they stand for.
* `Run.bits`, `tableBits` — how they are written.

## Main results

* `readLengths_runs` — runs are read one after another as long as lengths are missing.
* `read_runs` — the table that is read, and when none is.
-/

namespace Bilevel.Text.SymbolIds

open Bits Huffman

/-! ## Runs -/

/-- A run of code word lengths. How long it is counts from the least such run. -/
inductive Run where
  | single (length : Fin 32)
  /-- The last length again, at least three times. -/
  | again (more : Fin 4)
  /-- At least three zeros. -/
  | zeros (more : Fin 8)
  /-- At least eleven zeros. -/
  | manyZeros (more : Fin 128)
  deriving DecidableEq, Repr

namespace Run

/-- The number of the code word for a run. -/
def code : Run → Nat
  | single length => length
  | again _ => 32
  | zeros _ => 33
  | manyZeros _ => 34

/-- The bits behind the code word, which say how long the run is. -/
def extra : Run → List Bool
  | single _ => []
  | again more => lowBits 2 more
  | zeros more => lowBits 3 more
  | manyZeros more => lowBits 7 more

/-- How often a length is repeated. -/
def repeats : Run → Nat
  | single _ => 0
  | again more => 2 + more
  | zeros more => 2 + more
  | manyZeros more => 10 + more

/-- The length that is repeated, behind code words of which the last has length `last`. -/
def length (last : Nat) : Run → Nat
  | single length => length
  | again _ => last
  | zeros _ | manyZeros _ => 0

/-- The run repeats a length before it. -/
def isAgain : Run → Bool
  | again _ => true
  | _ => false

/-- The canonical code word for a run, where code words for runs have the given lengths. -/
def word (lengths : List Nat) (run : Run) : List Bool :=
  ((canonicalCodes (linesFrom 0 lengths))[run.code]?.map Entry.bits).getD []

/-- How a run is written. -/
def bits (lengths : List Nat) (run : Run) : List Bool := run.word lengths ++ run.extra

end Run

/-- The lengths up to the end of a run. -/
def extend (before : List Nat) (run : Run) : List Nat :=
  before ++ List.replicate (run.repeats + 1) (run.length (before.getLastD 0))

/-- The lengths that runs stand for. -/
def expand (runs : List Run) : List Nat := runs.foldl extend []

/-- The first run repeats a length before it, of which there is none. -/
def startsAgain (runs : List Run) : Bool := runs.head?.any Run.isAgain

/-- How the lengths of the code words for runs are written, and the runs. -/
def tableBits (lengths : List Nat) (runs : List Run) : List Bool :=
  lengths.flatMap (lowBits 4) ++ runs.flatMap (Run.bits lengths)

theorem length_extend (before : List Nat) (run : Run) :
    (extend before run).length = before.length + (run.repeats + 1) := by
  simp [extend]

/-- The lengths of a run: the first one, and its repetitions. -/
theorem extend_eq (before : List Nat) (run : Run) : extend before run =
    before ++ [run.length (before.getLastD 0)] ++ List.replicate run.repeats
      ((before ++ [run.length (before.getLastD 0)]).getLastD 0) := by
  simp [extend, List.replicate_succ]

theorem length_foldl_extend (before : List Nat) (runs : List Run) :
    before.length ≤ (runs.foldl extend before).length := by
  induction runs generalizing before with
  | nil => exact Nat.le_refl _
  | cons run runs ih =>
    have := ih (extend before run)
    rw [length_extend] at this
    rw [List.foldl_cons]
    omega

/-! ## Tables of lengths -/

theorem linesFrom_eq (first : Nat) (lengths : List Nat) : linesFrom first lengths =
    lengths.mapIdx fun i length => ⟨length, .values ((first + i : Nat) : Int) 0⟩ := by
  induction lengths generalizing first with
  | nil => rfl
  | cons length lengths ih =>
    rw [linesFrom, ih, List.mapIdx_cons]
    simp [Nat.add_comm, Nat.add_left_comm]

theorem tableOfLengths_eq (lengths : List Nat) : tableOfLengths lengths =
    Table.build (lengths.mapIdx fun i length => ⟨length, .values (i : Int) 0⟩) := by
  rw [tableOfLengths, linesFrom_eq]
  simp only [Nat.zero_add]

section

variable {lengths : List Nat} {table : Table} {run : Run} {runs : List Run}

/-- The code word of a run leads to its number. -/
theorem lookup_word (h : tableOfLengths lengths = .ok table)
    (hused : 0 < lengths.getD run.code 0) :
    table.tree.lookup (run.word lengths) = some (.values run.code 0) := by
  obtain ⟨length, hlength, hpos⟩ : ∃ length, lengths[run.code]? = some length ∧ 0 < length := by
    rw [List.getD_eq_getElem?_getD] at hused
    cases hlength : lengths[run.code]? with
    | none => simp [hlength] at hused
    | some length => exact ⟨length, rfl, by simpa [hlength] using hused⟩
  have hline : (linesFrom 0 lengths)[run.code]? = some ⟨length, .values run.code 0⟩ := by
    simp [linesFrom_eq, hlength]
  rw [← Table.map_line_build h, List.getElem?_map] at hline
  obtain ⟨entry, hentry, hline⟩ := Option.map_eq_some_iff.mp hline
  have hfits : ∀ line ∈ linesFrom 0 lengths, line.range.Fits := by
    intro line hline
    rw [linesFrom_eq] at hline
    obtain ⟨i, hi, rfl⟩ := List.mem_mapIdx.mp hline
    trivial
  have hlookup := (Table.sound_build hfits h).lookup entry (List.mem_of_getElem? hentry)
    (by rw [hline]; exact decide_eq_true hpos)
  rw [hline] at hlookup
  rw [Table.entries_build h] at hentry
  rw [Run.word, hentry]
  exact hlookup

theorem reads_decodeValue_run (h : tableOfLengths lengths = .ok table)
    (hused : 0 < lengths.getD run.code 0) :
    Reads False table.decodeValue (run.word lengths) run.code := by
  have hcode : run.code < 35 := by
    cases run with
    | single length => exact length.2.trans (by decide)
    | again | zeros | manyZeros => simp [Run.code]
  have hcheck : checkSigned run.code = .ok run.code :=
    checkSigned_eq_ok.mpr ⟨by unfold FitsSigned; omega, rfl⟩
  refine Table.reads_decodeValue ?_
  rw [← List.append_nil (run.word lengths)]
  refine (Tree.reads_read (lookup_word h hused)).bind ?_ False.elim
  have hplace : Reads False (Reader.readBits 0) [] 0 := reads_readBits (by decide)
  refine hplace.bind_nil ?_
  have hvalue : (Range.values run.code 0).valueAt 0 = some (run.code : Int) := by
    simp [Range.valueAt]
  rw [hvalue]
  exact (reads_lift hcheck).bind_nil (reads_pure _)

/-- A run is read as a length and how often it is repeated. -/
theorem reads_readRun (h : tableOfLengths lengths = .ok table)
    (hused : 0 < lengths.getD run.code 0) {before : List Nat}
    (hbefore : run.isAgain = true → before ≠ []) :
    Reads False (readRun table before.getLast?) (run.bits lengths)
      (run.length (before.getLastD 0), run.repeats) := by
  refine (reads_decodeValue_run h hused).bind ?_ False.elim
  cases run with
  | single length =>
    have hlt := length.2
    have hcode : (0 : Int) ≤ (Run.single length).code ∧ ((Run.single length).code : Int) < 32 := by
      simp only [Run.code]
      omega
    rw [if_pos hcode]
    exact reads_pure _
  | again more =>
    obtain ⟨last, hlast⟩ : ∃ last, before.getLast? = some last :=
      ⟨_, List.getLast?_eq_some_getLast (hbefore rfl)⟩
    have hcode : ((Run.again more).code : Int) = 32 := rfl
    rw [hcode, if_neg (by decide), if_pos rfl, hlast, ← List.append_nil (Run.extra _)]
    have hlength : before.getLastD 0 = last := by
      rw [List.getLastD_eq_getLast?, hlast]
      rfl
    rw [Run.length, hlength]
    exact (reads_readBits more.2).bind (reads_pure _) False.elim
  | zeros more =>
    have hcode : ((Run.zeros more).code : Int) = 33 := rfl
    rw [hcode, if_neg (by decide), if_neg (by decide), if_pos rfl, ← List.append_nil (Run.extra _)]
    exact (reads_readBits more.2).bind (reads_pure _) False.elim
  | manyZeros more =>
    have hcode : ((Run.manyZeros more).code : Int) = 34 := rfl
    rw [hcode, if_neg (by decide), if_neg (by decide), if_neg (by decide), if_pos rfl,
      ← List.append_nil (Run.extra _)]
    exact (reads_readBits more.2).bind (reads_pure _) False.elim

/-- There is no length to repeat in front of all others. -/
theorem readRun_again (h : tableOfLengths lengths = .ok table)
    (hused : 0 < lengths.getD run.code 0) (hagain : run.isAgain = true) {r : Reader}
    {following : List Bool} (hle : r.position ≤ 8 * r.data.size)
    (hrest : r.rest = run.bits lengths ++ following) :
    readRun table none r = .error (.huffman .invalidCode) := by
  rw [Run.bits, List.append_assoc] at hrest
  have hread := reads_decodeValue_run h hused r _ hle False.elim hrest
  cases run with
  | again more =>
    rw [readRun, run_bind_ok hread]
    rfl
  | single | zeros | manyZeros => cases hagain

/-! ## Runs one after another -/

/-- The repetitions of a run that isn't too long. -/
theorem readLengths_repeats {count repeats : Nat} (hle : repeats ≤ count) (before : List Nat) :
    readLengths table count before.toArray repeats = readLengths table (count - repeats)
      (before ++ List.replicate repeats (before.getLastD 0)).toArray 0 := by
  induction repeats generalizing count before with
  | zero => simp
  | succ repeats ih =>
    obtain ⟨count, rfl⟩ : ∃ n, count = n + 1 := ⟨count - 1, by omega⟩
    have hlast : before.toArray.back?.getD 0 = before.getLastD 0 := by
      rw [List.back?_toArray, List.getLastD_eq_getLast?]
    rw [readLengths, hlast, List.push_toArray, ih (by omega), Nat.add_sub_add_right]
    simp [List.replicate_succ]

/-- A run that is too long. -/
theorem readLengths_overrun {count repeats : Nat} (hlt : count < repeats) (before : Array Nat) :
    readLengths table count before repeats = throw (.huffman .invalidCode) := by
  induction count generalizing before repeats with
  | zero =>
    obtain ⟨repeats, rfl⟩ : ∃ n, repeats = n + 1 := ⟨repeats - 1, by omega⟩
    rfl
  | succ count ih =>
    obtain ⟨repeats, rfl⟩ : ∃ n, repeats = n + 1 := ⟨repeats - 1, by omega⟩
    rw [readLengths, ih (by omega)]

/-- A run is read if a length is missing. Its own lengths are yet to be counted. -/
theorem readLengths_run (h : tableOfLengths lengths = .ok table)
    (hused : 0 < lengths.getD run.code 0) {before : List Nat}
    (hbefore : run.isAgain = true → before ≠ []) (count : Nat) {r : Reader} {following : List Bool}
    (hle : r.position ≤ 8 * r.data.size) (hrest : r.rest = run.bits lengths ++ following) :
    readLengths table (count + 1) before.toArray 0 r =
      readLengths table count (before ++ [run.length (before.getLastD 0)]).toArray run.repeats
        (r.skip (run.bits lengths).length) := by
  have hread := reads_readRun h hused hbefore r following hle False.elim hrest
  rw [readLengths, List.back?_toArray, run_bind_ok hread, ← List.push_toArray]

/-- Runs are read one after another as long as lengths are missing. -/
theorem readLengths_runs (h : tableOfLengths lengths = .ok table)
    (hused : ∀ run ∈ runs, 0 < lengths.getD run.code 0) (before : List Nat)
    (hbefore : before = [] → startsAgain runs = false) {symbols : Nat}
    (hsymbols : (runs.foldl extend before).length ≤ symbols) {r : Reader} {following : List Bool}
    (hle : r.position ≤ 8 * r.data.size)
    (hrest : r.rest = runs.flatMap (Run.bits lengths) ++ following) :
    readLengths table (symbols - before.length) before.toArray 0 r =
      readLengths table (symbols - (runs.foldl extend before).length)
        (runs.foldl extend before).toArray 0
        (r.skip (runs.flatMap (Run.bits lengths)).length) := by
  induction runs generalizing before r with
  | nil => rfl
  | cons run runs ih =>
    obtain ⟨hrun, hruns⟩ := List.forall_mem_cons.mp hused
    rw [List.flatMap_cons, List.append_assoc] at hrest
    have hagain : run.isAgain = true → before ≠ [] := fun hagain hnil => by
      have hstart := hbefore hnil
      simp [startsAgain, hagain] at hstart
    have hroom : (extend before run).length ≤ symbols :=
      (length_foldl_extend (extend before run) runs).trans hsymbols
    rw [length_extend] at hroom
    have hle' : (r.skip (run.bits lengths).length).position ≤ 8 * r.data.size :=
      Reader.position_add_le hle hrest
    have hrest' : (r.skip (run.bits lengths).length).rest =
        runs.flatMap (Run.bits lengths) ++ following :=
      Reader.rest_skip_append hrest
    have hnext := ih hruns (extend before run) (fun hnil => by simp [extend] at hnil) hsymbols hle'
      hrest'
    obtain ⟨count, hcount⟩ : ∃ count, symbols - before.length = count + 1 :=
      ⟨symbols - before.length - 1, by omega⟩
    have hleft : count - run.repeats = symbols - (extend before run).length := by
      rw [length_extend]
      omega
    calc readLengths table (symbols - before.length) before.toArray 0 r
        = readLengths table count (before ++ [run.length (before.getLastD 0)]).toArray run.repeats
            (r.skip (run.bits lengths).length) := by
          rw [hcount, readLengths_run h hrun hagain count hle hrest]
      _ = readLengths table (symbols - (extend before run).length) (extend before run).toArray 0
            (r.skip (run.bits lengths).length) := by
          rw [readLengths_repeats (by omega), hleft, ← extend_eq]
      _ = _ := by
          rw [hnext, Reader.skip_skip, List.flatMap_cons, List.length_append]
          rfl

/-- A run that has too many lengths. -/
theorem readLengths_run_overrun (h : tableOfLengths lengths = .ok table)
    (hused : 0 < lengths.getD run.code 0) {before : List Nat}
    (hbefore : run.isAgain = true → before ≠ []) {symbols : Nat}
    (hmissing : before.length < symbols) (hsymbols : symbols < (extend before run).length)
    {r : Reader} {following : List Bool} (hle : r.position ≤ 8 * r.data.size)
    (hrest : r.rest = run.bits lengths ++ following) :
    readLengths table (symbols - before.length) before.toArray 0 r =
      .error (.huffman .invalidCode) := by
  rw [length_extend] at hsymbols
  obtain ⟨count, hcount⟩ : ∃ count, symbols - before.length = count + 1 :=
    ⟨symbols - before.length - 1, by omega⟩
  rw [hcount, readLengths_run h hused hbefore count hle hrest, readLengths_overrun (by omega)]
  rfl

/-! ## All runs -/

theorem expand_ne_nil (hruns : runs ≠ []) : expand runs ≠ [] := by
  obtain ⟨run, runs, rfl⟩ := List.exists_cons_of_ne_nil hruns
  refine List.ne_nil_of_length_pos ?_
  calc 0 < (extend [] run).length := by rw [length_extend]; omega
    _ ≤ (expand (run :: runs)).length := length_foldl_extend (extend [] run) runs

section

variable {symbols : Nat} {r : Reader} {following : List Bool}

/-- The lengths that runs stand for are read. -/
theorem readLengths_expand (h : tableOfLengths lengths = .ok table)
    (hused : ∀ run ∈ runs, 0 < lengths.getD run.code 0) (hstart : startsAgain runs = false)
    (hsymbols : (expand runs).length = symbols) (hle : r.position ≤ 8 * r.data.size)
    (hrest : r.rest = runs.flatMap (Run.bits lengths) ++ following) :
    readLengths table symbols #[] 0 r =
      .ok ((expand runs).toArray, r.skip (runs.flatMap (Run.bits lengths)).length) := by
  have hread := readLengths_runs h hused [] (fun _ => hstart) hsymbols.le hle hrest
  refine hread.trans ?_
  rw [show symbols - (runs.foldl extend []).length = 0 from Nat.sub_eq_zero_of_le hsymbols.ge]
  rfl

/-- No length can be repeated in front of all others. -/
theorem readLengths_startsAgain (h : tableOfLengths lengths = .ok table)
    (hused : ∀ run ∈ runs, 0 < lengths.getD run.code 0) (hstart : startsAgain runs = true)
    (hsymbols : 0 < symbols) (hle : r.position ≤ 8 * r.data.size)
    (hrest : r.rest = runs.flatMap (Run.bits lengths) ++ following) :
    readLengths table symbols #[] 0 r = .error (.huffman .invalidCode) := by
  cases runs with
  | nil => cases hstart
  | cons run runs =>
    obtain ⟨symbols, rfl⟩ : ∃ n, symbols = n + 1 := ⟨symbols - 1, by omega⟩
    rw [List.flatMap_cons, List.append_assoc] at hrest
    have hread := readRun_again h (hused run List.mem_cons_self) hstart hle hrest
    rw [readLengths]
    exact run_bind_eq_error.mpr (.inl hread)

/-- A run begins before the last length and ends behind it. -/
theorem readLengths_past (h : tableOfLengths lengths = .ok table) {front back : List Run}
    (hused : ∀ other ∈ front ++ run :: back, 0 < lengths.getD other.code 0)
    (hstart : startsAgain (front ++ run :: back) = false)
    (hmissing : (expand front).length < symbols)
    (hsymbols : symbols < (expand (front ++ [run])).length) (hle : r.position ≤ 8 * r.data.size)
    (hrest : r.rest = (front ++ run :: back).flatMap (Run.bits lengths) ++ following) :
    readLengths table symbols #[] 0 r = .error (.huffman .invalidCode) := by
  have husedFront : ∀ other ∈ front, 0 < lengths.getD other.code 0 := fun other hother =>
    hused other (List.mem_append_left _ hother)
  have husedRun := hused run (List.mem_append_right _ List.mem_cons_self)
  have hstartFront : startsAgain front = false := by
    cases front with
    | nil => rfl
    | cons first front => exact hstart
  have hbefore : run.isAgain = true → expand front ≠ [] := by
    intro hagain
    refine expand_ne_nil fun hnil => ?_
    rw [hnil] at hstart
    exact Bool.false_ne_true (hstart.symm.trans hagain)
  rw [List.flatMap_append, List.flatMap_cons, List.append_assoc, List.append_assoc] at hrest
  have hfront := readLengths_runs h husedFront [] (fun _ => hstartFront) hmissing.le hle
    hrest
  have hend : expand (front ++ [run]) = extend (expand front) run := by
    simp [expand]
  rw [hend] at hsymbols
  have hle' : (r.skip (front.flatMap (Run.bits lengths)).length).position ≤ 8 * r.data.size :=
    Reader.position_add_le hle hrest
  have hrest' : (r.skip (front.flatMap (Run.bits lengths)).length).rest =
      run.bits lengths ++ (back.flatMap (Run.bits lengths) ++ following) :=
    Reader.rest_skip_append hrest
  exact hfront.trans (readLengths_run_overrun h husedRun hbefore hmissing hsymbols hle' hrest')

end

/-! ## Tables of symbol numbers -/

theorem reads_readRunLengths (hlengths : ∀ length ∈ lengths, length < 16) :
    Reads False (readRunLengths lengths.length) (lengths.flatMap (lowBits 4)) lengths := by
  induction lengths with
  | nil => exact reads_pure []
  | cons length lengths ih =>
    obtain ⟨hlength, hrest⟩ := List.forall_mem_cons.mp hlengths
    rw [List.flatMap_cons]
    refine (reads_readBits hlength).bind ?_ False.elim
    rw [← List.append_nil (lengths.flatMap _)]
    exact (ih hrest).bind (reads_pure _) False.elim

/-- Behind the lengths of the code words for runs, the runs themselves are read. -/
theorem read_eq (hcount : lengths.length = runCodes) (hlengths : ∀ length ∈ lengths, length < 16)
    (h : tableOfLengths lengths = .ok table) (symbols : Nat) {r : Reader} {following : List Bool}
    (hle : r.position ≤ 8 * r.data.size)
    (hrest : r.rest = lengths.flatMap (lowBits 4) ++ following) :
    read symbols r = (readLengths table symbols #[] 0 >>= fun lengths => Reader.align >>= fun _ =>
      liftM (tableOfLengths lengths.toList)) (r.skip (lengths.flatMap (lowBits 4)).length) := by
  have hread := reads_readRunLengths hlengths r following hle False.elim hrest
  rw [hcount] at hread
  rw [read, run_bind_ok hread, run_bind_lift h]

/-- The lengths that are behind one another in runs are those of a table, and the next byte
boundary is behind it. -/
theorem run_tableOfLengths (lengths : List Nat) (r : Reader) :
    (Reader.align >>= fun _ => (liftM (tableOfLengths lengths) : Reading Table)) r =
      (tableOfLengths lengths).map fun table =>
        (table, { r with position := 8 * ((r.position + 7) / 8) }) := by
  have halign : Reader.align r = .ok ((), { r with position := 8 * ((r.position + 7) / 8) }) := rfl
  rw [run_bind_ok halign]
  cases tableOfLengths lengths <;> rfl

end

/-- Lengths of code words for runs are next, with which there are such code words, and then runs
that have one. -/
structure Written (lengths : List Nat) (runs : List Run) (r : Reader) (following : List Bool) :
    Prop where
  count : lengths.length = 35
  short : ∀ length ∈ lengths, length < 16
  accepted : ∃ table, Table.build (lengths.mapIdx fun i length => ⟨length, .values (i : Int) 0⟩) =
    .ok table
  used : ∀ run ∈ runs, 0 < lengths.getD run.code 0
  inside : r.position ≤ 8 * r.data.size
  rest : r.rest = tableBits lengths runs ++ following

/-- If runs stand for as many lengths as there are symbols, then the table with these lengths is
read, up to the next byte boundary. No table is read if a length is missing and the first run
repeats one, nor if a run begins before the last length and ends behind it. -/
theorem read_runs (lengths : List Nat) (runs : List Run) (r : Reader) (following : List Bool)
    (h : Written lengths runs r following) (symbols : Nat) :
    (startsAgain runs = false → (expand runs).length = symbols → read symbols r =
      (Table.build ((expand runs).mapIdx fun i length => ⟨length, .values (i : Int) 0⟩)).map
        fun table => (table, { r with
          position := 8 * ((r.position + (tableBits lengths runs).length + 7) / 8) })) ∧
    (startsAgain runs = true → 0 < symbols → read symbols r = .error (.huffman .invalidCode)) ∧
    ∀ front run back, runs = front ++ run :: back → (expand front).length < symbols →
      symbols < (expand (front ++ [run])).length →
      read symbols r = .error (.huffman .invalidCode) := by
  obtain ⟨hcount, hlengths, ⟨table, htable⟩, hused, hle, hrest⟩ := h
  rw [← tableOfLengths_eq] at htable
  rw [tableBits, List.append_assoc] at hrest
  have hread := read_eq hcount hlengths htable symbols hle hrest
  have hle' : (r.skip (lengths.flatMap (lowBits 4)).length).position ≤ 8 * r.data.size :=
    Reader.position_add_le hle hrest
  have hrest' : (r.skip (lengths.flatMap (lowBits 4)).length).rest =
      runs.flatMap (Run.bits lengths) ++ following :=
    Reader.rest_skip_append hrest
  refine ⟨fun hstart hsymbols => ?_, fun hstart hsymbols => ?_, ?_⟩
  · have hlengths := readLengths_expand htable hused hstart hsymbols hle' hrest'
    rw [hread, run_bind_ok hlengths, run_tableOfLengths, tableOfLengths_eq, Reader.skip_skip,
      tableBits, List.length_append]
    rfl
  · have hlengths := readLengths_startsAgain htable hused hstart hsymbols hle' hrest'
    exact hread.trans (run_bind_eq_error.mpr (.inl hlengths))
  · rintro front run back rfl hmissing hsymbols
    have hlengths : readLengths table symbols #[] 0 (r.skip (lengths.flatMap (lowBits 4)).length) =
        .error (.huffman .invalidCode) := by
      cases hstart : startsAgain (front ++ run :: back) with
      | false => exact readLengths_past htable hused hstart hmissing hsymbols hle' hrest'
      | true => exact readLengths_startsAgain htable hused hstart (by omega) hle' hrest'
    exact hread.trans (run_bind_eq_error.mpr (.inl hlengths))

/-- The next code words of all lengths as a list, with which the kernel computes. -/
theorem Run.bits_eq (lengths : List Nat) : Run.bits lengths = fun run =>
    ((assignCodes ((List.range (maxLength + 1)).map (firstCode (linesFrom 0 lengths))).toArray
      (linesFrom 0 lengths))[run.code]?.map Entry.bits).getD [] ++ run.extra := by
  funext run
  rw [Run.bits, Run.word, canonicalCodes, ← List.toArray_range, List.map_toArray]

/-- Lengths of the code words for three runs: one of a length, one that repeats it, and one of
zeros. -/
def threeCodes : List Nat := [0, 0, 2] ++ List.replicate 29 0 ++ [3, 3, 0]

def threeRuns : List Run := [.single 2, .again 0, .zeros 0]

/-- Three runs with seven lengths. -/
def threeData : Bytes :=
  #[0, 0x20, 0, 0, 0, 0, 0, 0, 0, 0, 0, 0, 0, 0, 0, 0, 0x33, 0x01, 0x0C, 0]

theorem written_threeRuns :
    Written threeCodes threeRuns (Reader.ofBytes threeData) (List.replicate 7 false) where
  count := rfl
  short := by decide +kernel
  accepted := exists_of_isOk (by decide +kernel)
  used := by decide +kernel
  inside := Nat.zero_le _
  rest := by
    rw [tableBits, Run.bits_eq]
    decide +kernel

/-- The last of the runs ends behind the lengths of five symbols. -/
theorem read_runs_threeRuns :
    read 7 (Reader.ofBytes threeData) =
      (Table.build ([2, 2, 2, 2, 0, 0, 0].mapIdx fun i length => ⟨length, .values (i : Int) 0⟩)).map
        (fun table => (table, ⟨threeData, 160⟩)) ∧
    read 5 (Reader.ofBytes threeData) = .error (.huffman .invalidCode) := by
  have hlength : (tableBits threeCodes threeRuns).length = 153 := by
    rw [tableBits, Run.bits_eq]
    decide +kernel
  have hexpand : expand threeRuns = [2, 2, 2, 2, 0, 0, 0] := by decide
  have hread := read_runs threeCodes threeRuns _ _ written_threeRuns
  rw [hlength, hexpand] at hread
  exact ⟨(hread 7).1 rfl rfl,
    (hread 5).2.2 [.single 2, .again 0] (.zeros 0) [] rfl (by decide) (by decide)⟩

/-- Lengths of the code words for runs, of which only those that repeat a length have one. -/
def againCodes : List Nat := List.replicate 32 0 ++ [1, 0, 0]

def againData : Bytes := Array.replicate 16 0 ++ #[0x10, 0]

theorem written_again :
    Written againCodes [.again 0] (Reader.ofBytes againData) [false] where
  count := rfl
  short := by decide +kernel
  accepted := exists_of_isOk (by decide +kernel)
  used := by decide +kernel
  inside := Nat.zero_le _
  rest := by
    rw [tableBits, Run.bits_eq]
    decide +kernel

/-- Runs behind the last length aren't read: without symbols not even one that has no length to
repeat, and with four symbols not one that begins where the fourth length ends. -/
theorem read_runs_unread :
    Written againCodes [.again 0] (Reader.ofBytes againData) [false] ∧
    startsAgain [.again 0] = true ∧ (read 0 (Reader.ofBytes againData)).isOk = true ∧
    Written threeCodes threeRuns (Reader.ofBytes threeData) (List.replicate 7 false) ∧
    4 < (expand threeRuns).length ∧ (read 4 (Reader.ofBytes threeData)).isOk = true :=
  ⟨written_again, rfl, by decide +kernel, written_threeRuns, by decide, by decide +kernel⟩

end Bilevel.Text.SymbolIds

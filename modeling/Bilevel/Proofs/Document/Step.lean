import Bilevel.Proofs.Document.Decodes

/-!
# What one segment changes

A segment that is decoded opens its page, ends it, or leaves all pages open that were open. In the
last case it changes at most the open page to which it belongs, and what is stored under its own
number.

## Main results

* `Assembly.decoded_of_decode` — the three cases.
-/

namespace Bilevel

namespace Numbered

variable {α : Type} {t : Numbered α} {k p : Nat} {v : α}

theorem mem_insert : p ∈ t.insert k v ↔ p = k ∨ p ∈ t := by
  rw [Std.ExtTreeMap.mem_insert, Nat.compare_eq_eq, eq_comm (a := k)]

theorem mem_erase : p ∈ t.erase k ↔ p ∈ t ∧ p ≠ k := by
  rw [Std.ExtTreeMap.mem_erase, Ne, Nat.compare_eq_eq, eq_comm, and_comm]

theorem get?_insert : (t.insert k v)[p]? = if p = k then some v else t[p]? := by
  simp only [Std.ExtTreeMap.getElem?_insert, Nat.compare_eq_eq, eq_comm (a := k)]

theorem get?_insert_self : (t.insert k v)[k]? = some v := get?_insert.trans (if_pos rfl)

theorem get?_insert_of_ne (h : p ≠ k) : (t.insert k v)[p]? = t[p]? :=
  get?_insert.trans (if_neg h)

/-- What holds of all values holds with a new one among them, too. -/
theorem forall_insert {P : α → Prop} (h : ∀ (n : Nat) w, t[n]? = some w → P w) (hv : P v) :
    ∀ (n : Nat) w, (t.insert k v)[n]? = some w → P w := by
  intro n w hw
  rw [get?_insert] at hw
  split at hw
  · exact Option.some.inj hw ▸ hv
  · exact h n w hw

theorem get?_erase : (t.erase k)[p]? = if p = k then none else t[p]? := by
  simp only [Std.ExtTreeMap.getElem?_erase, Nat.compare_eq_eq, eq_comm (a := k)]

end Numbered

namespace Assembly

/-- Two stores hold the same under a number. -/
structure SameAt (n : Nat) (s t : Store) : Prop where
  dictionaries : s.dictionaries[n]? = t.dictionaries[n]?
  tables : s.tables[n]? = t.tables[n]?
  regions : s.regions[n]? = t.regions[n]?
  decoded : n ∈ s.decoded ↔ n ∈ t.decoded

/-- From `a` to `b`, at most the open page with the number `page`, and what is stored under the
number `segment`, has changed. -/
structure Local (page segment : Nat) (a b : Assembly) : Prop where
  open_iff : ∀ q, q ∈ b.openPages ↔ q ∈ a.openPages
  others : ∀ q, q ≠ page → b.openPages[q]? = a.openPages[q]?
  pages : b.pages = a.pages
  failedPages : b.failedPages = a.failedPages
  failures : b.failures = a.failures
  store : ∀ n, n ≠ segment → SameAt n b.store a.store

/-- What a segment that was decoded has done. -/
inductive Decoded (segment : Segment) (a b : Assembly) : Prop
  | opened (page : OpenPage) (kind : segment.header.kind = .pageInformation)
    (new : segment.header.page ∉ a.openPages) (eq : b = a.setPage segment.header.page page)
  | ended (kind : segment.header.kind = .endOfPage)
    (old : segment.header.page ∈ a.openPages) (eq : b = a.endPage segment.header.page)
  | kept (kind : segment.header.kind ≠ .pageInformation)
    (eq : Local segment.header.page segment.header.number a b)

namespace SameAt

variable {n : Nat} {s t u : Store}

theorem refl (n : Nat) (s : Store) : SameAt n s s := ⟨rfl, rfl, rfl, .rfl⟩

theorem symm (h : SameAt n s t) : SameAt n t s :=
  ⟨h.dictionaries.symm, h.tables.symm, h.regions.symm, h.decoded.symm⟩

theorem trans (h : SameAt n s t) (h' : SameAt n t u) : SameAt n s u :=
  ⟨h.dictionaries.trans h'.dictionaries, h.tables.trans h'.tables, h.regions.trans h'.regions,
    h.decoded.trans h'.decoded⟩

theorem get?_eq (h : SameAt n s t) : s.get? n = t.get? n := by
  simp only [Store.get?, h.dictionaries, h.tables, h.regions]

section

variable {k : Nat} (hn : n ≠ k)
include hn

theorem insertDictionary (dictionary : SymbolDictionary) :
    SameAt n { s with dictionaries := s.dictionaries.insert k dictionary } s :=
  ⟨Numbered.get?_insert_of_ne hn, rfl, rfl, .rfl⟩

theorem insertTable (table : Huffman.Table) :
    SameAt n { s with tables := s.tables.insert k table } s :=
  ⟨rfl, Numbered.get?_insert_of_ne hn, rfl, .rfl⟩

theorem insertRegion (region : Region) :
    SameAt n { s with regions := s.regions.insert k region } s :=
  ⟨rfl, rfl, Numbered.get?_insert_of_ne hn, .rfl⟩

end

end SameAt

namespace Local

variable {page segment : Nat} {a b c : Assembly}

theorem refl (page segment : Nat) (a : Assembly) : Local page segment a a :=
  ⟨fun _ => .rfl, fun _ _ => rfl, rfl, rfl, rfl, fun _ _ => .refl _ _⟩

theorem trans (h : Local page segment a b) (h' : Local page segment b c) :
    Local page segment a c where
  open_iff q := (h'.open_iff q).trans (h.open_iff q)
  others q hq := (h'.others q hq).trans (h.others q hq)
  pages := h'.pages.trans h.pages
  failedPages := h'.failedPages.trans h.failedPages
  failures := h'.failures.trans h.failures
  store n hn := (h'.store n hn).trans (h.store n hn)

theorem setPage (h : page ∈ a.openPages) (new : OpenPage) :
    Local page segment a (a.setPage page new) where
  open_iff q := by
    rw [Assembly.setPage, Numbered.mem_insert]
    exact ⟨fun hq => hq.elim (fun he => he ▸ h) id, .inr⟩
  others _ hq := Numbered.get?_insert_of_ne hq
  pages := rfl
  failedPages := rfl
  failures := rfl
  store _ _ := .refl _ _

theorem setStore (store : Store) (h : ∀ n, n ≠ segment → SameAt n store a.store) :
    Local page segment a { a with store } :=
  ⟨fun _ => .rfl, fun _ _ => rfl, rfl, rfl, rfl, h⟩

end Local

variable {settings : DecodeSettings} {shared : Option Store} {a b : Assembly}

theorem Placed.isLocal {header : SegmentHeader} {use : RegionUse} {region : Region}
    (h : Placed settings header use region a b) : Local header.page header.number a b := by
  cases h with
  | stored _ eq =>
    subst eq
    exact Local.setStore _ fun n hn => .insertRegion hn region
  | drawn _ old _ eq => exact eq ▸ Local.setPage (mem_openPages old) _

theorem Noted.isLocal {header : SegmentHeader} {use : RegionUse} {decoded : TextRegion}
    (h : Noted header use decoded a b) : Local header.page header.number a b := by
  cases h with
  | stored _ eq => exact eq ▸ .refl _ _ _
  | noted _ old eq => exact eq ▸ Local.setPage (mem_openPages old) _

variable {segment : Segment}

theorem Referenced.isLocal {bitmap : Bitmap} (h : Referenced settings shared segment a bitmap b) :
    Local segment.header.page segment.header.number a b := by
  cases h with
  | region _ _ _ _ eq => exact eq ▸ .refl _ _ _
  | page _ _ old _ _ eq => exact eq ▸ Local.setPage (mem_openPages old) _

theorem DecodedRegion.isLocal {use : RegionUse} {coding : RegionCoding}
    (h : DecodedRegion settings shared segment use a b coding) :
    Local segment.header.page segment.header.number a b := by
  cases h with
  | generic _ _ placed => exact placed.isLocal
  | text _ _ _ noted placed => exact noted.isLocal.trans placed.isLocal
  | refinement _ referenced _ placed => exact referenced.isLocal.trans placed.isLocal

/-- A segment that is decoded opens its page, ends it, or keeps all pages open. -/
theorem decoded_of_decode (h : a.decode settings shared segment = .ok b) :
    Decoded segment a b := by
  cases decodes_of_decode h with
  | startPage kind new _ _ eq => exact .opened _ kind new eq
  | endPage kind old eq => exact .ended kind (mem_openPages old) eq
  | endStripe kind _ old _ _ eq =>
    exact .kept (by simp [kind]) (eq ▸ Local.setPage (mem_openPages old) _)
  | table kind _ eq =>
    subst eq
    exact .kept (by simp [kind]) (Local.setStore _ fun n hn => .insertTable hn _)
  | dictionary kind _ _ eq =>
    subst eq
    exact .kept (by simp [kind]) (Local.setStore _ fun n hn => .insertDictionary hn _)
  | region kind decoded => exact .kept (by simp [kind]) decoded.isLocal
  | ignored kind eq =>
    exact .kept (fun hkind => by simp [hkind] at kind) (eq ▸ .refl _ _ _)

section NoteDecoded

variable {a b : Assembly} {m n : Nat}

theorem mem_noteDecoded : n ∈ (a.noteDecoded m).store.decoded ↔ n = m ∨ n ∈ a.store.decoded := by
  rw [noteDecoded, Std.ExtTreeSet.mem_insert, Nat.compare_eq_eq, eq_comm]

theorem sameAt_noteDecoded (h : SameAt n a.store b.store) (m : Nat) :
    SameAt n (a.noteDecoded m).store (b.noteDecoded m).store :=
  ⟨h.dictionaries, h.tables, h.regions, by rw [mem_noteDecoded, mem_noteDecoded, h.decoded]⟩

theorem sameAt_noteDecoded_of_ne (h : n ≠ m) : SameAt n (a.noteDecoded m).store a.store :=
  ⟨rfl, rfl, rfl, mem_noteDecoded.trans ⟨fun hn => hn.resolve_left h, .inr⟩⟩

end NoteDecoded

/-- What dealing with a segment has done. -/
inductive Processed (settings : DecodeSettings) (shared : Option Store) (segment : Segment)
    (a b : Assembly) : Prop
  | passed (passed : a.passesOver segment.header.page = true) (eq : b = a)
  | done (passed : a.passesOver segment.header.page = false) (c : Assembly)
    (ok : a.decode settings shared segment = .ok c) (eq : b = c.noteDecoded segment.header.number)
  | failed (passed : a.passesOver segment.header.page = false) (error : DecodeError)
    (err : a.decode settings shared segment = .error error)
    (eq : b = a.fail segment.header.page (some segment.header.number) error)

theorem processed_process (settings : DecodeSettings) (shared : Option Store) (segment : Segment)
    (a : Assembly) : Processed settings shared segment a (a.process settings shared segment) := by
  unfold process
  dsimp only
  split
  · next h => exact .passed h rfl
  · next h =>
    rw [Bool.not_eq_true] at h
    split
    · next c hc => exact .done h c hc rfl
    · next e he => exact .failed h e he rfl

theorem passesOver_eq_true {a : Assembly} {page : Nat} :
    a.passesOver page = true ↔ page ≠ 0 ∧ page ∈ a.failedPages := by
  simp [passesOver]

/-! ## Ending a page -/

/-- The finished pages with a given number. -/
def pagesOf (a : Assembly) (p : Nat) : Array Page := a.pages.filter (·.number = p)

theorem mem_endPage {a : Assembly} {number p : Nat} :
    p ∈ (a.endPage number).openPages ↔ p ∈ a.openPages ∧ p ≠ number := by
  unfold endPage
  split
  · exact Numbered.mem_erase
  · next h =>
    refine ⟨fun hp => ⟨hp, ?_⟩, And.left⟩
    rintro rfl
    rw [Std.ExtTreeMap.mem_iff_isSome_getElem?, h] at hp
    cases hp

theorem pagesOf_endPage {a : Assembly} {number p : Nat} : (a.endPage number).pagesOf p =
    a.pagesOf p ++ if p = number then ((a.openPages[p]?).map (·.finish p)).toArray else #[] := by
  unfold endPage pagesOf
  split
  · next h =>
    by_cases hp : p = number
    · subst hp
      simp [h, OpenPage.finish]
    · simp [hp, OpenPage.finish, Ne.symm hp]
  · next h =>
    by_cases hp : p = number
    · subst hp
      simp [h]
    · simp [hp]

theorem get?_endPage {a : Assembly} {number p : Nat} :
    (a.endPage number).openPages[p]? = if p = number then none else a.openPages[p]? := by
  unfold endPage
  split
  · exact Numbered.get?_erase
  · next h =>
    split
    · next hp => rw [hp, h]
    · rfl

theorem endPage_store (a : Assembly) (number : Nat) : (a.endPage number).store = a.store := by
  unfold endPage
  split <;> rfl

theorem endPage_failedPages (a : Assembly) (number : Nat) :
    (a.endPage number).failedPages = a.failedPages := by
  unfold endPage
  split <;> rfl

theorem endPage_failures (a : Assembly) (number : Nat) :
    (a.endPage number).failures = a.failures := by
  unfold endPage
  split <;> rfl

theorem endAll_failures (a : Assembly) : a.endAll.failures = a.failures := by
  unfold endAll
  induction a.openNumbers generalizing a with
  | nil => rfl
  | cons number numbers ih => rw [List.foldl_cons, ih, endPage_failures]

theorem mem_openNumbers {a : Assembly} {p : Nat} : p ∈ a.openNumbers ↔ p ∈ a.openPages :=
  Std.ExtTreeMap.mem_keys

theorem nodup_openNumbers (a : Assembly) : a.openNumbers.Nodup :=
  Std.ExtTreeMap.ordered_keys.imp fun h => Nat.ne_of_lt (Nat.compare_eq_lt.mp h)

theorem mem_foldl_endPage {a : Assembly} {numbers : List Nat} {p : Nat} :
    p ∈ (numbers.foldl endPage a).openPages ↔ p ∈ a.openPages ∧ p ∉ numbers := by
  induction numbers generalizing a with
  | nil => simp
  | cons number numbers ih =>
    rw [List.foldl_cons, ih, mem_endPage, List.mem_cons, not_or, and_assoc]

/-! ## Failing -/

theorem mem_fail {a : Assembly} {page p : Nat} {segment : Option Nat} {error : DecodeError} :
    p ∈ (a.fail page segment error).openPages ↔ p ∈ a.openPages ∧ (p = page → page = 0) := by
  unfold fail
  dsimp only
  split
  · next h => simp [h]
  · next h =>
    rw [Numbered.mem_erase]
    exact ⟨fun hp => ⟨hp.1, fun he => absurd he hp.2⟩, fun hp => ⟨hp.1, fun he => h (hp.2 he)⟩⟩

theorem mem_failedPages_fail {a : Assembly} {page p : Nat} {segment : Option Nat}
    {error : DecodeError} : p ∈ (a.fail page segment error).failedPages ↔
      p ∈ a.failedPages ∨ (p = page ∧ page ≠ 0) := by
  unfold fail
  dsimp only
  split
  · next h => simp [h]
  · next h =>
    rw [Std.ExtTreeSet.mem_insert, Nat.compare_eq_eq]
    constructor
    · rintro (he | hp)
      · exact .inr ⟨he.symm, h⟩
      · exact .inl hp
    · rintro (hp | ⟨he, -⟩)
      · exact .inr hp
      · exact .inl he.symm

theorem get?_fail {a : Assembly} {page p : Nat} {segment : Option Nat} {error : DecodeError} :
    (a.fail page segment error).openPages[p]? =
      if p = page ∧ page ≠ 0 then none else a.openPages[p]? := by
  unfold fail
  dsimp only
  split
  · next h => simp [h]
  · next h => simp [h, Numbered.get?_erase]

@[simp] theorem fail_store (a : Assembly) (page : Nat) (segment : Option Nat)
    (error : DecodeError) : (a.fail page segment error).store = a.store := by
  unfold fail
  dsimp only
  split <;> rfl

@[simp] theorem fail_failures (a : Assembly) (page : Nat) (segment : Option Nat)
    (error : DecodeError) :
    (a.fail page segment error).failures = a.failures.push ⟨page, segment, error⟩ := by
  unfold fail
  dsimp only
  split <;> rfl

@[simp] theorem fail_pages (a : Assembly) (page : Nat) (segment : Option Nat)
    (error : DecodeError) : (a.fail page segment error).pages = a.pages := by
  unfold fail
  dsimp only
  split <;> rfl

theorem mem_foldl_fail {a : Assembly} {numbers : List Nat} {segment : Option Nat}
    {error : DecodeError} {p : Nat} :
    p ∈ (numbers.foldl (fun a number => a.fail number segment error) a).openPages ↔
      p ∈ a.openPages ∧ (p ∈ numbers → p = 0) := by
  induction numbers generalizing a with
  | nil => simp
  | cons number numbers ih =>
    rw [List.foldl_cons, ih, mem_fail]
    grind

/-- Failures are never dropped. -/
theorem failures_of_process {settings : DecodeSettings} {shared : Option Store} {a : Assembly}
    {segment : Segment} (h : (a.process settings shared segment).failures = #[]) :
    a.failures = #[] := by
  rcases processed_process settings shared segment a with ⟨-, eq⟩ | ⟨-, c, ok, eq⟩ | ⟨-, e, -, eq⟩
  · rwa [eq] at h
  · rw [eq] at h
    rcases decoded_of_decode ok with ⟨page, -, -, rfl⟩ | ⟨-, -, rfl⟩ | ⟨-, hlocal⟩
    · exact h
    · exact (endPage_failures a _).symm.trans h
    · exact hlocal.failures.symm.trans h
  · rw [eq, fail_failures] at h
    exact absurd h Array.push_ne_empty

end Assembly
end Bilevel

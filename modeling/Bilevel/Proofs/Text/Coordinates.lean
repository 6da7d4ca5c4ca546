import Bilevel.Proofs.Text.Values
import Mathlib.Algebra.Ring.Int.Defs

/-!
# Where instances go

The instances of a text region are where the values say that are read for them. Along S, the first
instance of a strip is reached from those of the strips before, and every other one from the last
pixel of its neighbour. Along T, a strip is reached from the strips before, and an instance from its
strip. Which of its corners is there makes a difference along T only.

## Main definitions

* `Strip`, `instancesFrom` — what is read for a strip, and the coordinates of its instances.
* `Read`, `Values.Trace` — values that are read one after another.

## Main results

* `Values.readInstances_eq_ok` — instances are where their values say, and are drawn in order.
* `decodeInstances_places` — the same for a whole region.
-/

namespace Bilevel.Text

/-! ## Placing an instance -/

namespace Layout

/-- How far a bitmap reaches along S. -/
def extent (layout : Layout) (bitmap : Bitmap) : Int :=
  if layout.transposed then bitmap.height else bitmap.width

/-- The place of the top left corner of a bitmap with given coordinates. -/
def topLeft (layout : Layout) (bitmap : Bitmap) (s t : Int) : Int × Int :=
  if layout.transposed then (if layout.corner.isLeft then t else t + 1 - bitmap.width, s)
  else (s, if layout.corner.isTop then t else t + 1 - bitmap.height)

/-- The coordinate along S of the top left corner of an instance. -/
def along (layout : Layout) (p : Placement) : Int := if layout.transposed then p.y else p.x

end Layout

namespace Instance

/-- The last pixel of an instance along S. -/
def last (layout : Layout) (i : Instance) : Int := i.s + layout.extent i.glyph.bitmap - 1

def placement (layout : Layout) (i : Instance) : Placement :=
  let corner := layout.topLeft i.glyph.bitmap i.s i.t
  ⟨i.glyph.id, corner.1, corner.2⟩

def draw (params : Params) (region : Bitmap) (i : Instance) : Bitmap :=
  let p := i.placement params.layout
  region.combine i.glyph.bitmap p.x p.y params.operator

end Instance

/-- Along S it makes no difference which corner has the coordinates. -/
theorem Layout.along_placement (layout : Layout) (i : Instance) :
    layout.along (i.placement layout) = i.s := by
  unfold Layout.along Instance.placement Layout.topLeft
  cases layout.transposed <;> rfl

/-- The coordinates are those of another corner. -/
def Params.withCorner (params : Params) (corner : Corner) : Params :=
  { params with layout.corner := corner }

theorem place_eq_ok {layout : Layout} {i : Instance} {p : Placement} {last : Int}
    (h : layout.place i.glyph.id i.glyph.bitmap i.s i.t = .ok (p, last)) :
    p = i.placement layout ∧ last = i.last layout := by
  obtain ⟨corner, transposed⟩ := layout
  obtain ⟨width, hwidth, h⟩ := bind_eq_ok.mp h
  obtain ⟨height, hheight, h⟩ := bind_eq_ok.mp h
  obtain ⟨-, rfl⟩ := checkSigned_eq_ok.mp hwidth
  obtain ⟨-, rfl⟩ := checkSigned_eq_ok.mp hheight
  cases corner <;> cases transposed <;>
  · simp only [Layout.atEnd, Corner.isLeft, Corner.isTop, Bool.not_true, Bool.not_false,
      Bool.false_eq_true, if_true, if_false, bind_eq_ok, checkSigned_eq_ok, pure_eq_ok,
      Prod.mk.injEq] at h
    obtain ⟨s, hs, x, hx, y, hy, last, hlast, rfl, rfl⟩ := h
    simp only [Instance.placement, Instance.last, Layout.topLeft, Layout.extent, Corner.isLeft,
      Corner.isTop, Bool.false_eq_true, if_true, if_false, Placement.mk.injEq, true_and]
    omega

/-! ## Coordinates -/

/-- What is read for a strip. -/
structure Strip where
  /-- The place of the strip, relative to the last one, in strips. -/
  distance : Int
  /-- The place of the first instance, relative to that in the last strip. -/
  first : Int
  head : Glyph
  /-- The other instances, each with its place relative to its neighbour. -/
  rest : List (Int × Glyph)

def Strip.glyphs (strip : Strip) : List Glyph := strip.head :: strip.rest.map Prod.snd

section

variable (params : Params)

/-- Instances of the strip at `t`, of which the last one before them ends with the pixel `last`. -/
def behindLast (t last : Int) : List (Int × Glyph) → List Instance
  | [] => []
  | (distance, glyph) :: rest =>
    let i : Instance := ⟨glyph, last + distance + params.offset, t + glyph.across⟩
    i :: behindLast t (i.last params.layout) rest

/-- The instances of a strip at `t`, of which the first one is at `s`. -/
def Strip.instances (t s : Int) (strip : Strip) : List Instance :=
  let i : Instance := ⟨strip.head, s, t + strip.head.across⟩
  i :: behindLast params t (i.last params.layout) strip.rest

/-- The instances of strips that are reached from a strip at `t`, of which the first instance is
at `s`. -/
def instancesFrom (t s : Int) (strips : List Strip) : List Instance :=
  (strips.mapIdx fun j strip => strip.instances params
    (t + ((strips.take (j + 1)).map Strip.distance).sum * (1 <<< params.logStrips : Nat))
    (s + ((strips.take (j + 1)).map Strip.first).sum)).flatten

theorem instancesFrom_cons (t s : Int) (strip : Strip) (strips : List Strip) :
    instancesFrom params t s (strip :: strips) =
      strip.instances params (t + strip.distance * (1 <<< params.logStrips : Nat))
          (s + strip.first) ++
        instancesFrom params (t + strip.distance * (1 <<< params.logStrips : Nat))
          (s + strip.first) strips := by
  simp [instancesFrom, List.mapIdx_cons, Int.add_mul, Int.add_assoc]

/-! ## What is read -/

/-- A value that is read. -/
inductive Read where
  | stripDistance (distance : Int)
  | first (distance : Int)
  | distance (distance : Option Int)
  | across (place : Int)
  | symbolId (id : Nat)
  | refined (refined : Bool)
  | refinement (symbol bitmap : Bitmap)

/-- What is read for a symbol that may be refined. -/
def refinedReads (symbol : Bitmap) : (refined : Option Bitmap) → List Read
  | none => [.refined false]
  | some bitmap => [.refined true, .refinement symbol bitmap]

/-- What is read for an instance once its place along S is known. -/
def Glyph.reads (glyph : Glyph) : List Read :=
  (if params.logStrips = 0 then [] else [.across glyph.across]) ++ .symbolId glyph.id ::
    if params.refines then refinedReads glyph.symbol glyph.refined else []

/-- What is read for the instances behind another one, up to the end of the strip. -/
def readsBehind (rest : List (Int × Glyph)) : List Read :=
  rest.flatMap (fun (distance, glyph) => .distance (some distance) :: glyph.reads params) ++
    [.distance none]

def Strip.reads (strip : Strip) : List Read :=
  .stripDistance strip.distance :: .first strip.first :: strip.head.reads params ++
    readsBehind params strip.rest

/-- An instance shows one of the symbols. What isn't read for it has its default. -/
structure Glyph.Valid (symbols : Array Bitmap) (glyph : Glyph) : Prop where
  symbol : symbols[glyph.id]? = some glyph.symbol
  across : params.logStrips = 0 → glyph.across = 0
  refined : params.refines = false → glyph.refined = none

end

namespace Values

section

variable {σ : Type} (values : Values σ) (params : Params)

/-- A value is read. -/
def Gives : Read → σ → σ → Prop
  | .stripDistance distance, s, s' => values.stripDistance s = .ok (distance, s')
  | .first distance, s, s' => values.first s = .ok (distance, s')
  | .distance distance, s, s' => values.distance s = .ok (distance, s')
  | .across place, s, s' => values.across params.logStrips s = .ok (place, s')
  | .symbolId id, s, s' => values.symbolId s = .ok (id, s')
  | .refined refined, s, s' => values.refined s = .ok (refined, s')
  | .refinement symbol bitmap, s, s' => values.readRefinement params symbol s = .ok (bitmap, s')

/-- Values are read one after another. -/
inductive Trace : List Read → σ → σ → Prop
  | nil (s : σ) : Trace [] s s
  | cons {read : Read} {reads : List Read} {s s' s'' : σ} (h : values.Gives params read s s')
      (h' : Trace reads s' s'') : Trace (read :: reads) s s''

end

section

variable {σ : Type} {values : Values σ} {params : Params} {symbols : Array Bitmap} {s s' s'' : σ}
  {cursor cursor' : Cursor} {reads reads' : List Read}

theorem Trace.single {read : Read} (h : values.Gives params read s s') :
    values.Trace params [read] s s' :=
  .cons h (.nil s')

theorem Trace.append (h : values.Trace params reads s s') (h' : values.Trace params reads' s' s'') :
    values.Trace params (reads ++ reads') s s'' := by
  induction h with
  | nil => exact h'
  | cons hread _ ih => exact .cons hread (ih h')

/-! ## Instances one after another -/

variable (params) in
/-- What is read from a cursor on for instances in the same strip, up to its end. There are none in
front of all strips. -/
def pending (cursor : Cursor) (rest : List (Int × Glyph)) : List Read :=
  if cursor.last.isSome then readsBehind params rest else []

theorem run_checkSigned_eq_ok {n m : Int}
    (h : (liftM (checkSigned n) : DecodingFrom σ Int) s = .ok (m, s')) : m = n ∧ s' = s := by
  obtain ⟨hcheck, hstate⟩ := run_lift_eq_ok.mp h
  exact ⟨(checkSigned_eq_ok.mp hcheck).2, hstate⟩

theorem readStripDistance_eq_ok {n : Int} (h : values.readStripDistance params s = .ok (n, s')) :
    ∃ distance, n = distance * (1 <<< params.logStrips : Nat) ∧
      values.stripDistance s = .ok (distance, s') := by
  obtain ⟨distance, s₁, hread, hcheck⟩ := run_bind_eq_ok.mp h
  obtain ⟨hn, rfl⟩ := run_checkSigned_eq_ok hcheck
  exact ⟨distance, hn, hread⟩

theorem start_eq_ok (h : values.start params s = .ok (cursor, s')) :
    ∃ distance, cursor = ⟨-(distance * (1 <<< params.logStrips : Nat)), 0, none⟩ ∧
      values.stripDistance s = .ok (distance, s') := by
  obtain ⟨n, s₁, hread, h₁⟩ := run_bind_eq_ok.mp h
  obtain ⟨distance, rfl, hdistance⟩ := readStripDistance_eq_ok hread
  obtain ⟨strip, s₂, hcheck, h₂⟩ := run_bind_eq_ok.mp h₁
  obtain ⟨rfl, rfl⟩ := run_checkSigned_eq_ok hcheck
  obtain ⟨rfl, rfl⟩ := Prod.mk.inj (Except.ok.inj h₂)
  exact ⟨distance, rfl, hdistance⟩

/-- The next strip is reached from the last one, and so is its first instance. -/
theorem nextStrip_eq_ok {place : Int}
    (h : values.nextStrip params cursor s = .ok ((cursor', place), s')) :
    ∃ distance first, values.Trace params [.stripDistance distance, .first first] s s' ∧
      cursor'.strip = cursor.strip + distance * (1 <<< params.logStrips : Nat) ∧
      cursor'.first = cursor.first + first ∧ place = cursor'.first := by
  obtain ⟨n, s₁, hread, h₁⟩ := run_bind_eq_ok.mp h
  obtain ⟨distance, rfl, hdistance⟩ := readStripDistance_eq_ok hread
  obtain ⟨strip, s₂, hstrip, h₂⟩ := run_bind_eq_ok.mp h₁
  obtain ⟨rfl, rfl⟩ := run_checkSigned_eq_ok hstrip
  obtain ⟨first, s₃, hfirst, h₃⟩ := run_bind_eq_ok.mp h₂
  obtain ⟨n, s₄, hplace, h₄⟩ := run_bind_eq_ok.mp h₃
  obtain ⟨rfl, rfl⟩ := run_checkSigned_eq_ok hplace
  obtain ⟨hpair, rfl⟩ := Prod.mk.inj (Except.ok.inj h₄)
  obtain ⟨rfl, rfl⟩ := Prod.mk.inj hpair
  exact ⟨distance, first, .cons hdistance (.single hfirst), rfl, rfl, rfl⟩

theorem advance_eq_ok {last distance n : Int} (h : Cursor.advance params last distance = .ok n) :
    n = last + distance + params.offset := by
  obtain ⟨m, hcheck, hadvance⟩ := bind_eq_ok.mp h
  obtain ⟨-, rfl⟩ := checkSigned_eq_ok.mp hcheck
  exact (checkSigned_eq_ok.mp hadvance).2

/-- The next instance is reached from the last pixel of its neighbour, or it is the first one in the
next strip. -/
theorem next_eq_ok {place : Int} (h : values.next params cursor s = .ok ((cursor', place), s')) :
    (∃ last distance, cursor.last = some last ∧ cursor' = cursor ∧
      place = last + distance + params.offset ∧
      values.Trace params [.distance (some distance)] s s') ∨
    ∃ distance first, cursor'.strip = cursor.strip + distance * (1 <<< params.logStrips : Nat) ∧
      cursor'.first = cursor.first + first ∧ place = cursor'.first ∧
      values.Trace params (pending params cursor [] ++ [.stripDistance distance, .first first])
        s s' := by
  unfold next at h
  cases hlast : cursor.last with
  | none =>
    rw [hlast] at h
    obtain ⟨distance, first, htrace, hstrip, hfirst, hplace⟩ := nextStrip_eq_ok h
    refine .inr ⟨distance, first, hstrip, hfirst, hplace, ?_⟩
    rw [pending, hlast]
    exact htrace
  | some last =>
    rw [hlast] at h
    obtain ⟨n, s₁, hread, h⟩ := run_bind_eq_ok.mp h
    cases n with
    | none =>
      obtain ⟨distance, first, htrace, hstrip, hfirst, hplace⟩ := nextStrip_eq_ok h
      refine .inr ⟨distance, first, hstrip, hfirst, hplace, ?_⟩
      rw [pending, hlast]
      exact .cons hread htrace
    | some distance =>
      obtain ⟨n, s₂, hlift, h⟩ := run_bind_eq_ok.mp h
      obtain ⟨hadvance, rfl⟩ := run_lift_eq_ok.mp hlift
      obtain rfl := advance_eq_ok hadvance
      obtain ⟨hpair, rfl⟩ := Prod.mk.inj (Except.ok.inj h)
      obtain ⟨rfl, rfl⟩ := Prod.mk.inj hpair
      exact .inl ⟨last, distance, rfl, rfl, rfl, .single hread⟩

theorem finish_eq_ok {u : Unit} (h : values.finish params cursor s = .ok (u, s')) :
    values.Trace params (pending params cursor []) s s' := by
  unfold finish at h
  unfold pending
  cases hlast : cursor.last with
  | none =>
    rw [hlast] at h
    obtain ⟨-, rfl⟩ := Prod.mk.inj (Except.ok.inj h)
    exact .nil s
  | some last =>
    rw [hlast] at h
    obtain ⟨n, s₁, hread, h⟩ := run_bind_eq_ok.mp h
    cases n with
    | none =>
      obtain ⟨-, rfl⟩ := Prod.mk.inj (Except.ok.inj h)
      exact .single hread
    | some distance =>
      obtain ⟨n, s₂, -, h⟩ := run_bind_eq_ok.mp h
      cases h

theorem readAcross_eq_ok {across : Int} (h : values.readAcross params s = .ok (across, s')) :
    (params.logStrips = 0 → across = 0) ∧
      values.Trace params (if params.logStrips = 0 then [] else [.across across]) s s' := by
  unfold readAcross at h
  by_cases hlog : params.logStrips = 0
  · rw [if_pos hlog] at h ⊢
    obtain ⟨rfl, rfl⟩ := Prod.mk.inj (Except.ok.inj h)
    exact ⟨fun _ => rfl, .nil s⟩
  · rw [if_neg hlog] at h ⊢
    exact ⟨fun hzero => absurd hzero hlog, .single h⟩

theorem readRefined_eq_ok {symbol : Bitmap} {refined : Option Bitmap}
    (h : values.readRefined params symbol s = .ok (refined, s')) :
    (params.refines = false → refined = none) ∧
      values.Trace params (if params.refines then refinedReads symbol refined else []) s s' := by
  unfold readRefined at h
  cases hrefines : params.refines with
  | false =>
    rw [hrefines] at h
    obtain ⟨rfl, rfl⟩ := Prod.mk.inj (Except.ok.inj h)
    exact ⟨fun _ => rfl, .nil s⟩
  | true =>
    rw [hrefines] at h
    refine ⟨fun hfalse => Bool.noConfusion hfalse, ?_⟩
    obtain ⟨isRefined, s₁, hread, h₁⟩ := run_bind_eq_ok.mp h
    cases isRefined with
    | false =>
      obtain ⟨rfl, rfl⟩ := Prod.mk.inj (Except.ok.inj h₁)
      exact .single hread
    | true =>
      obtain ⟨bitmap, s₂, hbitmap, h₂⟩ := run_bind_eq_ok.mp h₁
      obtain ⟨rfl, rfl⟩ := Prod.mk.inj (Except.ok.inj h₂)
      exact .cons hread (.single hbitmap)

/-- What is read for an instance behind its place along S. -/
theorem readInstance_eq_ok {i : Instance}
    (h : values.readInstance params symbols cursor s = .ok ((cursor', i), s')) :
    ∃ s₁, values.next params cursor s = .ok ((cursor', i.s), s₁) ∧
      i.t = cursor'.strip + i.glyph.across ∧ i.glyph.Valid params symbols ∧
      values.Trace params (i.glyph.reads params) s₁ s' := by
  obtain ⟨⟨cursor₁, place⟩, s₁, hnext, h₁⟩ := run_bind_eq_ok.mp h
  obtain ⟨across, s₂, hread, h₂⟩ := run_bind_eq_ok.mp h₁
  obtain ⟨hacross, htrace⟩ := readAcross_eq_ok hread
  obtain ⟨t, s₃, ht, h₃⟩ := run_bind_eq_ok.mp h₂
  obtain ⟨rfl, rfl⟩ := run_checkSigned_eq_ok ht
  obtain ⟨id, s₄, hid, h₄⟩ := run_bind_eq_ok.mp h₃
  cases hsymbol : symbols[id]? with
  | none =>
    rw [hsymbol] at h₄
    cases h₄
  | some symbol =>
    rw [hsymbol] at h₄
    obtain ⟨refined, s₅, hrefined, h₅⟩ := run_bind_eq_ok.mp h₄
    obtain ⟨hnone, htrace'⟩ := readRefined_eq_ok hrefined
    obtain ⟨hpair, rfl⟩ := Prod.mk.inj (Except.ok.inj h₅)
    obtain ⟨rfl, rfl⟩ := Prod.mk.inj hpair
    exact ⟨s₁, hnext, rfl, ⟨hsymbol, hacross, hnone⟩, htrace.append (.cons hid htrace')⟩

variable (params) in
/-- The instances in the same strip as a cursor, of which there are none in front of all strips. -/
def pendingInstances (cursor : Cursor) (rest : List (Int × Glyph)) : List Instance :=
  match cursor.last with
  | none => []
  | some last => behindLast params cursor.strip last rest

theorem pendingInstances_nil (cursor : Cursor) : pendingInstances params cursor [] = [] := by
  unfold pendingInstances
  split <;> rfl

section

variable {i : Instance} {last distance : Int} (rest : List (Int × Glyph))

theorem pending_cons (hlast : cursor.last = some last) (glyph : Glyph) :
    pending params cursor ((distance, glyph) :: rest) =
      .distance (some distance) :: glyph.reads params ++ readsBehind params rest := by
  simp [pending, hlast, readsBehind]

/-- An instance behind another one in the strip of a cursor. -/
theorem pendingInstances_cons (hlast : cursor.last = some last)
    (hs : i.s = last + distance + params.offset) (ht : i.t = cursor.strip + i.glyph.across) :
    pendingInstances params cursor ((distance, i.glyph) :: rest) =
      i :: behindLast params cursor.strip (i.last params.layout) rest := by
  have hi : i = ⟨i.glyph, last + distance + params.offset, cursor.strip + i.glyph.across⟩ := by
    rw [← hs, ← ht]
  rw [pendingInstances, hlast]
  dsimp only
  rw [behindLast, ← hi]

/-- An instance in front of the others in its strip. -/
theorem instances_head {t first : Int} (hs : i.s = first) (ht : i.t = t + i.glyph.across)
    (steps : Int) : Strip.instances params t first ⟨distance, steps, i.glyph, rest⟩ =
      i :: behindLast params t (i.last params.layout) rest := by
  have hi : i = ⟨i.glyph, first, t + i.glyph.across⟩ := by rw [← hs, ← ht]
  rw [Strip.instances, ← hi]

end

/-- Whatever instances are read, they are where the values say that are read for them, and they are
drawn one after another. -/
theorem readInstances_eq_ok {count : Nat} {region region' : Bitmap}
    {placed placed' : Array Placement} (h : values.readInstances params symbols count cursor region
      placed s = .ok ((region', placed'), s')) :
    ∃ rest strips, values.Trace params
        (pending params cursor rest ++ strips.flatMap (Strip.reads params)) s s' ∧
      (∀ glyph ∈ rest.map Prod.snd ++ strips.flatMap Strip.glyphs, glyph.Valid params symbols) ∧
      ∃ instances, instances = pendingInstances params cursor rest ++
          instancesFrom params cursor.strip cursor.first strips ∧
        instances.length = count ∧
        placed'.toList = placed.toList ++ instances.map (Instance.placement params.layout) ∧
        region' = instances.foldl (Instance.draw params) region := by
  induction count generalizing cursor region placed s with
  | zero =>
    obtain ⟨u, s₁, hfinish, h₁⟩ := run_bind_eq_ok.mp h
    obtain ⟨hpair, rfl⟩ := Prod.mk.inj (Except.ok.inj h₁)
    obtain ⟨rfl, rfl⟩ := Prod.mk.inj hpair
    refine ⟨[], [], ?_, by simp, [], ?_, rfl, by simp, rfl⟩
    · simpa using finish_eq_ok hfinish
    · simp [pendingInstances_nil, instancesFrom]
  | succ count ih =>
    obtain ⟨⟨cursor₁, i⟩, s₁, hinstance, h₁⟩ := run_bind_eq_ok.mp h
    obtain ⟨⟨p, last⟩, s₂, hlift, h₂⟩ := run_bind_eq_ok.mp h₁
    obtain ⟨hplace, rfl⟩ := run_lift_eq_ok.mp hlift
    obtain ⟨rfl, rfl⟩ := place_eq_ok hplace
    obtain ⟨s₃, hnext, ht, hvalid, hreads⟩ := readInstance_eq_ok hinstance
    obtain ⟨rest, strips, htrace, hvalids, instances, hinstances, hcount, hplaced, hregion⟩ := ih h₂
    have hrest : instances = behindLast params cursor₁.strip (i.last params.layout) rest ++
        instancesFrom params cursor₁.strip cursor₁.first strips := hinstances
    have hreads' : values.Trace params
        (i.glyph.reads params ++ (readsBehind params rest ++ strips.flatMap (Strip.reads params)))
        s₃ s' := hreads.append htrace
    have hglyphs : ∀ glyph ∈ i.glyph :: (rest.map Prod.snd ++ strips.flatMap Strip.glyphs),
        glyph.Valid params symbols := List.forall_mem_cons.mpr ⟨hvalid, hvalids⟩
    have hplaced' : placed'.toList =
        placed.toList ++ (i :: instances).map (Instance.placement params.layout) := by
      rw [hplaced, Array.toList_push, List.append_assoc]
      rfl
    rcases next_eq_ok hnext with ⟨last, distance, hlast, rfl, hs, hread⟩ |
      ⟨distance, first, hstrip, hfirst, hs, hread⟩
    · -- in the strip of the instance before it
      refine ⟨(distance, i.glyph) :: rest, strips, ?_, hglyphs, i :: instances, ?_,
        congrArg (· + 1) hcount, hplaced', hregion⟩
      · rw [pending_cons rest hlast, List.append_assoc]
        exact hread.append hreads'
      · rw [pendingInstances_cons rest hlast hs ht, hrest]
        rfl
    · -- the first one in its strip
      refine ⟨[], ⟨distance, first, i.glyph, rest⟩ :: strips, ?_, hglyphs, i :: instances, ?_,
        congrArg (· + 1) hcount, hplaced', hregion⟩
      · have htraces := hread.append hreads'
        simpa [Strip.reads] using htraces
      · rw [pendingInstances_nil, instancesFrom_cons, ← hstrip, ← hfirst, instances_head rest hs ht,
          hrest]
        rfl

/-- Whichever corner has the coordinates, the same is read, and instances are at the same places
along S. -/
theorem readInstances_withCorner {corner : Corner} {count : Nat}
    {region₁ region₂ region₁' region₂' : Bitmap}
    {placed₁ placed₂ placed₁' placed₂' : Array Placement}
    (hplaced : placed₂.map params.layout.along = placed₁.map params.layout.along)
    (h₁ : values.readInstances params symbols count cursor region₁ placed₁ s =
      .ok ((region₁', placed₁'), s'))
    (h₂ : values.readInstances (params.withCorner corner) symbols count cursor region₂ placed₂ s =
      .ok ((region₂', placed₂'), s'')) :
    s'' = s' ∧ placed₂'.map params.layout.along = placed₁'.map params.layout.along := by
  induction count generalizing cursor region₁ region₂ placed₁ placed₂ s with
  | zero =>
    obtain ⟨u, s₁, hfinish, h₁⟩ := run_bind_eq_ok.mp h₁
    obtain ⟨hpair₁, rfl⟩ := Prod.mk.inj (Except.ok.inj h₁)
    obtain ⟨hpair₂, rfl⟩ := Prod.mk.inj (Except.ok.inj ((run_bind_ok hfinish).symm.trans h₂))
    obtain ⟨-, rfl⟩ := Prod.mk.inj hpair₁
    obtain ⟨-, rfl⟩ := Prod.mk.inj hpair₂
    exact ⟨rfl, hplaced⟩
  | succ count ih =>
    obtain ⟨⟨cursor₁, i⟩, s₁, hinstance, h₁⟩ := run_bind_eq_ok.mp h₁
    obtain ⟨⟨p₁, last₁⟩, s₂, hlift₁, h₁⟩ := run_bind_eq_ok.mp h₁
    obtain ⟨hplace₁, rfl⟩ := run_lift_eq_ok.mp hlift₁
    obtain ⟨rfl, rfl⟩ := place_eq_ok hplace₁
    have h₂ := (run_bind_ok hinstance).symm.trans h₂
    obtain ⟨⟨p₂, last₂⟩, s₃, hlift₂, h₂⟩ := run_bind_eq_ok.mp h₂
    obtain ⟨hplace₂, rfl⟩ := run_lift_eq_ok.mp hlift₂
    obtain ⟨rfl, rfl⟩ := place_eq_ok hplace₂
    have hsame : params.layout.along (i.placement (params.withCorner corner).layout) = i.s :=
      Layout.along_placement (params.withCorner corner).layout i
    refine ih ?_ h₁ h₂
    rw [Array.map_push, Array.map_push, hplaced, hsame, Layout.along_placement]

end

end Values

/-- The instances of a text region are read from the values in its stream. From whatever values they
are read, there are as many as there should be. They are where the values say that are read for
them, and they are drawn one after another. With the coordinates of another corner the same values
are read, and instances are at the same places along S. -/
theorem decodeInstances_places :
    (∀ params symbols count region, decodeInstances params symbols count region =
      Values.ofSource.decodeInstances params symbols count region) ∧
    ∀ {σ : Type} (values : Values σ) (params : Params) (symbols : Array Bitmap) (count : Nat)
      (region region' : Bitmap) (placements : Array Placement) (s s' : σ),
      values.decodeInstances params symbols count region s = .ok ((region', placements), s') →
      placements.size = count ∧
      (∃ start strips,
        values.Trace params (.stripDistance start :: strips.flatMap (Strip.reads params)) s s' ∧
        (∀ glyph ∈ strips.flatMap Strip.glyphs, glyph.Valid params symbols) ∧
        ∃ instances, instances = instancesFrom params
            (-(start * (1 <<< params.logStrips : Nat))) 0 strips ∧
          placements.toList = instances.map (Instance.placement params.layout) ∧
          region' = instances.foldl (Instance.draw params) region) ∧
      ∀ corner region'' placements'' s'', values.decodeInstances (params.withCorner corner) symbols
        count region s = .ok ((region'', placements''), s'') →
        s'' = s' ∧ placements''.map params.layout.along = placements.map params.layout.along := by
  refine ⟨Values.decodeInstances_ofSource, ?_⟩
  intro σ values params symbols count region region' placements s s' h
  obtain ⟨cursor, s₁, hstart, hread⟩ := run_bind_eq_ok.mp h
  obtain ⟨start, hcursor, hfirst⟩ := Values.start_eq_ok hstart
  obtain ⟨rest, strips, htrace, hvalid, instances, hinstances, hcount, hplaced, hregion⟩ :=
    Values.readInstances_eq_ok hread
  rw [hcursor] at htrace hinstances
  refine ⟨?_, ⟨start, strips, .cons hfirst htrace, fun glyph hglyph => ?_, instances, hinstances,
    ?_, hregion⟩, fun corner region'' placements'' s'' h' =>
      Values.readInstances_withCorner rfl hread ((run_bind_ok hstart).symm.trans h')⟩
  · rw [← Array.length_toList, hplaced]
    simpa using hcount
  · exact hvalid glyph (List.mem_append_right _ hglyph)
  · simpa using hplaced

/-- Values that are read in one order only. -/
def Values.scripted : Values (List Read) where
  stripDistance
    | .stripDistance distance :: reads => .ok (distance, reads)
    | _ => .error .unexpectedEnd
  first
    | .first distance :: reads => .ok (distance, reads)
    | _ => .error .unexpectedEnd
  distance
    | .distance distance :: reads => .ok (distance, reads)
    | _ => .error .unexpectedEnd
  across _
    | .across place :: reads => .ok (place, reads)
    | _ => .error .unexpectedEnd
  symbolId
    | .symbolId id :: reads => .ok (id, reads)
    | _ => .error .unexpectedEnd
  refined
    | .refined refined :: reads => .ok (refined, reads)
    | _ => .error .unexpectedEnd
  deltas reads := .ok (⟨1, 0, 0, 0⟩, reads)
  refine _ _ _
    | .refinement _ bitmap :: reads => .ok (bitmap, reads)
    | _ => .error .unexpectedEnd

/-- Two instances in a strip of two rows, the second one refined, and one in the next strip. -/
def twoStrips : List Read :=
  [.stripDistance 0, .stripDistance 2, .first 1, .across 1, .symbolId 0, .refined false,
    .distance (some 3), .across 0, .symbolId 1, .refined true,
    .refinement (Bitmap.blank 1 3) (Bitmap.blank 2 3), .distance none,
    .stripDistance 1, .first 2, .across 0, .symbolId 1, .refined false, .distance none]

theorem decodeInstances_places_twoStrips :
    let params : Params :=
      ⟨1, ⟨.bottomRight, true⟩, .or, -1, true, ⟨.template0, {}⟩, 64⟩
    let symbols := #[Bitmap.filled 3 2 true, Bitmap.blank 1 3]
    ∃ region s', Values.scripted.decodeInstances params symbols 3 (Bitmap.blank 10 10) twoStrips =
        .ok ((region, #[⟨0, 3, 1⟩, ⟨1, 3, 4⟩, ⟨1, 6, 3⟩]), s') ∧
      ∃ start strips, Values.scripted.Trace params
          (.stripDistance start :: strips.flatMap (Strip.reads params)) twoStrips s' ∧
        ∃ instances, instances = instancesFrom params (-(start * 2)) 0 strips ∧
          instances.map (Instance.placement params.layout) = [⟨0, 3, 1⟩, ⟨1, 3, 4⟩, ⟨1, 6, 3⟩] ∧
          region = instances.foldl (Instance.draw params) (Bitmap.blank 10 10) := by
  intro params symbols
  have hplaced : (Values.scripted.decodeInstances params symbols 3 (Bitmap.blank 10 10)
      twoStrips >>= fun result => pure result.1.2) =
        .ok #[⟨0, 3, 1⟩, ⟨1, 3, 4⟩, ⟨1, 6, 3⟩] := by decide +kernel
  obtain ⟨⟨⟨region, placements⟩, s'⟩, hrun, hpure⟩ := bind_eq_ok.mp hplaced
  obtain rfl := pure_eq_ok.mp hpure
  obtain ⟨-, ⟨start, strips, htrace, -, instances, hinstances, hplacements, hregion⟩, -⟩ :=
    decodeInstances_places.2 _ _ _ _ _ _ _ _ _ hrun
  exact ⟨region, s', hrun, start, strips, htrace, instances, hinstances, hplacements.symm, hregion⟩

end Bilevel.Text

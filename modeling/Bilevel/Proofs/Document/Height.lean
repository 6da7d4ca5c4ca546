import Bilevel.Proofs.Document.Step
import Bilevel.Proofs.Region.Size

/-!
# Pages of open height

A page whose height isn't given grows with what is drawn onto it. In the end it looks the same as a
page that had its final height from the start: at any time, the taller page has the same pixels in
the rows that the growing one has so far, and the colour of an empty page in the rows below. A
region never reaches below the rows that there are once room was made for it, so neither what is
drawn nor what is taken from the page can tell the two apart.

## Main definitions

* `PageAction`, `OpenPage.act`, `OpenPage.acts` — what segments do to an open page.
* `OpenPage.presize` — a page as it would be if its height was given beforehand.

## Main results

* `OpenPage.act_presize` — one action on both pages.
* `OpenPage.acts_finalHeight` — a run of actions, from the start of a page.
* `Assembly.leads_of_decode` — what a segment does to its page is such a run.
-/

namespace Bilevel

namespace Bitmap

variable {b : Bitmap} {black : Bool}

theorem extendHeight_of_le {height : Nat} (h : height ≤ b.height) :
    b.extendHeight height black = b :=
  dif_neg (Nat.not_lt.mpr h)

theorem extendHeight_extendHeight {height total : Nat} (h : height ≤ total) :
    (b.extendHeight height black).extendHeight total black = b.extendHeight total black := by
  refine ext_get (by simp) (by simp; omega) fun x y => ?_
  simp only [get_extendHeight, width_extendHeight, height_extendHeight]
  split
  · next hnew => rw [if_pos (by omega)]
  · next hold =>
    by_cases hadded : x < b.width ∧ b.height ≤ y ∧ y < height
    · rw [if_pos hadded, if_pos (by omega)]
    · rw [if_neg hadded, if_neg (by omega)]

/-- What is drawn above the end of a bitmap can be drawn before or after it is made taller. -/
theorem combine_extendHeight {other : Bitmap} {x y : Int} {op : CombinationOperator} {total : Nat}
    (h : y + other.height ≤ b.height) : (b.extendHeight total black).combine other x y op =
      (b.combine other x y op).extendHeight total black := by
  refine ext_get (by simp) (by simp) fun x' y' => ?_
  simp only [get_combine, get_extendHeight, width_extendHeight, height_extendHeight, width_combine,
    height_combine]
  by_cases hunder : other.Under x y x' y'
  · have hy := hunder.2
    have hbelow : ¬(x' < b.width ∧ b.height ≤ y' ∧ y' < total) := by omega
    rw [if_neg hbelow, if_neg hbelow]
    have hiff : (x' < b.width ∧ y' < max b.height total) ↔ (x' < b.width ∧ y' < b.height) := by omega
    simp only [hiff]
  · simp only [hunder, and_false, if_false]

/-- What is taken above the end of a bitmap can be taken before or after it is made taller. -/
theorem window_extendHeight {x y width height total : Nat} (h : y + height ≤ b.height) :
    (b.extendHeight total black).window x y width height = b.window x y width height := by
  refine ext_get (by simp) (by simp) fun x' y' => ?_
  rw [get_window, get_window, get_extendHeight]
  by_cases hy : y' < height
  · rw [if_neg (by omega)]
  · simp [hy]

end Bitmap

/-- What is done to a page on which regions are being drawn. -/
inductive PageAction where
  | draw (region : Region)
  /-- Keep where the symbols of a text region are. -/
  | note (layout : TextLayout)
  /-- End a stripe, whose last row is given. -/
  | endStripe (row : Nat)
  /-- Refine a part of the page by the data of a refinement region. -/
  | refine (use : RegionUse) (data : Bytes)

namespace PageAction

/-- The number of rows that an action asks for. -/
def bottom (settings : DecodeSettings) : PageAction → Nat
  | .draw region => region.info.y + region.info.height
  | .note _ => 0
  | .endStripe row => row + 1
  | .refine _ data =>
    match (RegionInfo.read settings).run (Reader.ofBytes data) with
    | .ok (info, _) => info.y + info.height
    | .error _ => 0

/-- What is drawn has the size that is given for it. -/
def Sized : PageAction → Prop
  | .draw region => region.Sized
  | _ => True

end PageAction

namespace OpenPage

variable {settings : DecodeSettings}

/-- Draw a region, unless it is kept for later segments. -/
def place (settings : DecodeSettings) (page : OpenPage) (use : RegionUse) (region : Region) :
    Except DecodeError OpenPage :=
  if use = .intermediate then .ok page else page.draw settings region

/-- Do something to a page. Also gives the part of the page that is refined, if there is one. -/
def act (settings : DecodeSettings) (page : OpenPage) :
    PageAction → Except DecodeError (OpenPage × List Bitmap)
  | .draw region => return (← page.draw settings region, [])
  | .note layout => return (page.addLayout layout, [])
  | .endStripe row => return (← page.grow settings (← checkWord (row + 1)), [])
  | .refine use data => do
    let (info, _) ← (RegionInfo.read settings).run (Reader.ofBytes data)
    let page ← page.makeRoom settings info
    let reference ← page.bitmap.crop settings.maxPixelCount info.x info.y info.width info.height
    let region ← Refinement.decodeRegion settings data reference
    return (← page.place settings use region, [reference])

/-- Do several things to a page, one after another. -/
def acts (settings : DecodeSettings) (page : OpenPage) :
    List PageAction → Except DecodeError (OpenPage × List Bitmap)
  | [] => .ok (page, [])
  | action :: rest => do
    let (page, references) ← page.act settings action
    let (page, later) ← page.acts settings rest
    return (page, references ++ later)

/-- The page as it would be if its height was given beforehand. -/
def presize (height : Nat) (page : OpenPage) : OpenPage :=
  { page with
    info := { page.info with height := some height }
    bitmap := page.bitmap.extendHeight height page.info.startsBlack }

/-- A page has grown to have `bottom` rows at least, as far as the settings allow. -/
structure Grown (settings : DecodeSettings) (bottom : Nat) (page page' : OpenPage) : Prop where
  info : page'.info = page.info
  height : page'.bitmap.height = max page.bitmap.height bottom
  fits : page.info.width * page.bitmap.height ≤ settings.maxPixelCount →
    page.info.width * page'.bitmap.height ≤ settings.maxPixelCount

namespace Grown

variable {page page' page'' : OpenPage} {bottom bottom' : Nat}

theorem refl (settings : DecodeSettings) (page : OpenPage) : Grown settings 0 page page :=
  ⟨rfl, (Nat.max_zero _).symm, id⟩

theorem trans (h : Grown settings bottom page page') (h' : Grown settings bottom' page' page'') :
    Grown settings (max bottom bottom') page page'' where
  info := h'.info.trans h.info
  height := by rw [h'.height, h.height, Nat.max_assoc]
  fits hfits := h.info ▸ h'.fits (h.info ▸ h.fits hfits)

theorem le (h : Grown settings bottom page page') : page.bitmap.height ≤ page'.bitmap.height :=
  h.height ▸ Nat.le_max_left _ _

theorem bottom_le (h : Grown settings bottom page page') : bottom ≤ page'.bitmap.height :=
  h.height ▸ Nat.le_max_right _ _

end Grown

/-! ## One action -/

variable {page page' : OpenPage} (hopen : page.info.height = none)

include hopen

/-- A page of open height grows if the settings allow it. -/
theorem grow_eq_ok {height : Nat} (h : page.grow settings height = .ok page') :
    page' = { page with bitmap := page.bitmap.extendHeight height page.info.startsBlack } ∧
      Grown settings height page page' := by
  unfold grow at h
  rw [hopen] at h
  split at h
  · next hle =>
    have hle : height ≤ page.bitmap.height := hle.resolve_left (by simp)
    obtain rfl := Except.ok.inj h
    rw [Bitmap.extendHeight_of_le hle]
    exact ⟨rfl, rfl, (Nat.max_eq_left hle).symm, id⟩
  · split at h
    · cases h
    · next hfits =>
      obtain rfl := Except.ok.inj h
      refine ⟨rfl, rfl, Bitmap.height_extendHeight .., fun hold => ?_⟩
      rw [Bitmap.height_extendHeight]
      rcases Nat.le_total page.bitmap.height height with hmax | hmax
      · rw [Nat.max_eq_right hmax]
        exact Nat.not_lt.mp hfits
      · rwa [Nat.max_eq_left hmax]

/-- A taller page doesn't grow. -/
theorem grow_presize {height total : Nat} (h : page.grow settings height = .ok page')
    (hle : page'.bitmap.height ≤ total) :
    (page.presize total).grow settings height = .ok (page'.presize total) := by
  obtain ⟨heq, hgrown⟩ := grow_eq_ok hopen h
  have hpresize : page'.presize total = page.presize total := by
    rw [heq]
    unfold presize
    rw [Bitmap.extendHeight_extendHeight (hgrown.bottom_le.trans hle)]
  rw [hpresize]
  exact if_pos (.inl rfl)

theorem makeRoom_presize {info : RegionInfo} {total : Nat}
    (h : page.makeRoom settings info = .ok page') (hle : page'.bitmap.height ≤ total) :
    (page.presize total).makeRoom settings info = .ok (page'.presize total) := by
  obtain ⟨right, hright, h⟩ := bind_eq_ok.mp h
  obtain ⟨bottom, hbottom, h⟩ := bind_eq_ok.mp h
  unfold makeRoom
  simp only [hright, hbottom, Bind.bind, Except.bind]
  exact grow_presize hopen h hle

omit hopen in
theorem grow_of_makeRoom {info : RegionInfo} (h : page.makeRoom settings info = .ok page') :
    page.grow settings (info.y + info.height) = .ok page' := by
  obtain ⟨right, -, h⟩ := bind_eq_ok.mp h
  obtain ⟨bottom, hbottom, h⟩ := bind_eq_ok.mp h
  obtain ⟨-, rfl⟩ := checkWord_eq_ok.mp hbottom
  exact h

theorem grown_makeRoom {info : RegionInfo} (h : page.makeRoom settings info = .ok page') :
    Grown settings (info.y + info.height) page page' :=
  (grow_eq_ok hopen (grow_of_makeRoom h)).2

theorem grown_draw {region : Region} (h : page.draw settings region = .ok page') :
    Grown settings (region.info.y + region.info.height) page page' := by
  obtain ⟨room, hroom, h⟩ := bind_eq_ok.mp h
  obtain rfl := pure_eq_ok.mp h
  have hgrown := grown_makeRoom hopen hroom
  exact ⟨hgrown.info, (Bitmap.height_combine ..).trans hgrown.height, fun hfits =>
    (Bitmap.height_combine room.bitmap ..).symm ▸ hgrown.fits hfits⟩

/-- A region looks the same on a taller page. -/
theorem draw_presize {region : Region} (hsized : region.Sized) {total : Nat}
    (h : page.draw settings region = .ok page') (hle : page'.bitmap.height ≤ total) :
    (page.presize total).draw settings region = .ok (page'.presize total) := by
  obtain ⟨room, hroom, h⟩ := bind_eq_ok.mp h
  obtain rfl := pure_eq_ok.mp h
  have hgrown := grown_makeRoom hopen hroom
  have hpresize := makeRoom_presize hopen hroom (hle.trans' (Bitmap.height_combine ..).ge)
  have hbottom : (region.info.y : Int) + region.bitmap.height ≤ room.bitmap.height := by
    have hle := hgrown.bottom_le
    rw [hsized.height]
    omega
  refine bind_eq_ok.mpr ⟨_, hpresize, pure_eq_ok.mpr ?_⟩
  unfold presize
  rw [Bitmap.combine_extendHeight hbottom]

/-- A region for which there is room already. -/
theorem grown_place {region : Region} (hroom : region.info.y + region.info.height ≤
    page.bitmap.height) {use : RegionUse} (h : page.place settings use region = .ok page') :
    Grown settings 0 page page' := by
  unfold place at h
  split at h
  · obtain rfl := Except.ok.inj h
    exact .refl settings page
  · have hgrown := grown_draw hopen h
    refine ⟨hgrown.info, ?_, hgrown.fits⟩
    rw [hgrown.height, Nat.max_eq_left hroom, Nat.max_zero]

theorem place_presize {region : Region} (hsized : region.Sized) {use : RegionUse} {total : Nat}
    (h : page.place settings use region = .ok page') (hle : page'.bitmap.height ≤ total) :
    (page.presize total).place settings use region = .ok (page'.presize total) := by
  unfold place at h ⊢
  split at h
  · next huse =>
    obtain rfl := Except.ok.inj h
    rw [if_pos huse]
  · next huse =>
    rw [if_neg huse]
    exact draw_presize hopen hsized h hle

/-- What refining a part of a page has done, step by step. -/
structure Refined (settings : DecodeSettings) (use : RegionUse) (data : Bytes) (reference : Bitmap)
    (region : Region) (page room page' : OpenPage) : Prop where
  read : ∃ r, (RegionInfo.read settings).run (Reader.ofBytes data) = .ok (region.info, r)
  makeRoom : page.makeRoom settings region.info = .ok room
  crop : room.bitmap.crop settings.maxPixelCount region.info.x region.info.y region.info.width
    region.info.height = .ok reference
  decode : Refinement.decodeRegion settings data reference = .ok region
  sized : region.Sized
  place : room.place settings use region = .ok page'

omit hopen in
theorem refined_of_act {use : RegionUse} {data : Bytes} {references : List Bitmap}
    (h : page.act settings (.refine use data) = .ok (page', references)) :
    ∃ reference region room, Refined settings use data reference region page room page' ∧
      references = [reference] := by
  obtain ⟨⟨info, r⟩, hinfo, h⟩ := bind_eq_ok.mp h
  obtain ⟨room, hroom, h⟩ := bind_eq_ok.mp h
  obtain ⟨reference, hcrop, h⟩ := bind_eq_ok.mp h
  obtain ⟨region, hregion, h⟩ := bind_eq_ok.mp h
  obtain ⟨placed, hplace, h⟩ := bind_eq_ok.mp h
  cases h
  obtain ⟨hsized, r', hread⟩ := Refinement.read_of_decodeRegion hregion
  obtain ⟨rfl, -⟩ := Prod.mk.inj (Except.ok.inj (hinfo.symm.trans hread))
  exact ⟨reference, region, room, ⟨⟨r, hinfo⟩, hroom, hcrop, hregion, hsized, hplace⟩, rfl⟩

omit hopen in
theorem Refined.act_eq {use : RegionUse} {data : Bytes} {reference : Bitmap} {region : Region}
    {room : OpenPage} (h : Refined settings use data reference region page room page') :
    page.act settings (.refine use data) = .ok (page', [reference]) := by
  obtain ⟨r, hread⟩ := h.read
  exact bind_eq_ok.mpr ⟨_, hread, bind_eq_ok.mpr ⟨_, h.makeRoom, bind_eq_ok.mpr ⟨_, h.crop,
    bind_eq_ok.mpr ⟨_, h.decode, bind_eq_ok.mpr ⟨_, h.place, rfl⟩⟩⟩⟩⟩

section Refined

variable {use : RegionUse} {data : Bytes} {reference : Bitmap} {region : Region} {room : OpenPage}
  (h : Refined settings use data reference region page room page')

include h

theorem grown_room : Grown settings (region.info.y + region.info.height) page room :=
  grown_makeRoom hopen h.makeRoom

/-- There is room for the refined region when it is drawn. -/
theorem grown_refined : Grown settings 0 room page' :=
  grown_place ((grown_room hopen h).info ▸ hopen) (grown_room hopen h).bottom_le h.place

theorem refined_presize {total : Nat} (hle : page'.bitmap.height ≤ total) :
    Refined settings use data reference region (page.presize total) (room.presize total)
      (page'.presize total) where
  read := h.read
  makeRoom := makeRoom_presize hopen h.makeRoom ((grown_refined hopen h).le.trans hle)
  crop := by
    rw [← h.crop]
    unfold Bitmap.crop presize
    rw [Bitmap.window_extendHeight (grown_room hopen h).bottom_le]
  decode := h.decode
  sized := h.sized
  place := place_presize ((grown_room hopen h).info ▸ hopen) h.sized h.place hle

end Refined

/-- A page grows as far as an action asks for. -/
theorem grown_act {action : PageAction} {references : List Bitmap}
    (h : page.act settings action = .ok (page', references)) :
    Grown settings (action.bottom settings) page page' := by
  cases action with
  | draw region =>
    obtain ⟨drawn, hdraw, h⟩ := bind_eq_ok.mp h
    cases h
    exact grown_draw hopen hdraw
  | note layout =>
    cases h
    exact ⟨rfl, (Nat.max_zero _).symm, id⟩
  | endStripe row =>
    obtain ⟨height, hheight, h⟩ := bind_eq_ok.mp h
    obtain ⟨grown, hgrow, h⟩ := bind_eq_ok.mp h
    cases h
    obtain ⟨-, rfl⟩ := checkWord_eq_ok.mp hheight
    exact (grow_eq_ok hopen hgrow).2
  | refine use data =>
    obtain ⟨reference, region, room, hrefined, -⟩ := refined_of_act h
    obtain ⟨r, hread⟩ := hrefined.read
    have hbottom : (PageAction.refine use data).bottom settings =
        max (region.info.y + region.info.height) 0 := by
      unfold PageAction.bottom
      simp only [hread, Nat.max_zero]
    rw [hbottom]
    exact (grown_room hopen hrefined).trans (grown_refined hopen hrefined)

/-- What is done to a page of open height can be done to a taller page. What is refined is the same
then, and what comes of it too. -/
theorem act_presize {action : PageAction} (hsized : action.Sized) {references : List Bitmap}
    {total : Nat} (h : page.act settings action = .ok (page', references))
    (hle : page'.bitmap.height ≤ total) :
    (page.presize total).act settings action = .ok (page'.presize total, references) := by
  cases action with
  | draw region =>
    obtain ⟨drawn, hdraw, h⟩ := bind_eq_ok.mp h
    cases h
    exact bind_eq_ok.mpr ⟨_, draw_presize hopen hsized hdraw hle, rfl⟩
  | note layout =>
    cases h
    rfl
  | endStripe row =>
    obtain ⟨height, hheight, h⟩ := bind_eq_ok.mp h
    obtain ⟨grown, hgrow, h⟩ := bind_eq_ok.mp h
    cases h
    exact bind_eq_ok.mpr ⟨height, hheight, bind_eq_ok.mpr ⟨_, grow_presize hopen hgrow hle, rfl⟩⟩
  | refine use data =>
    obtain ⟨reference, region, room, hrefined, rfl⟩ := refined_of_act h
    exact (refined_presize hopen hrefined hle).act_eq

/-! ## Runs of actions -/

/-- A page grows as far as one of the actions asks for. -/
theorem grown_acts {actions : List PageAction} {references : List Bitmap}
    (h : page.acts settings actions = .ok (page', references)) :
    Grown settings ((actions.map (·.bottom settings)).foldr max 0) page page' := by
  induction actions generalizing page references with
  | nil =>
    cases h
    exact .refl settings _
  | cons action rest ih =>
    obtain ⟨⟨next, first⟩, hact, h⟩ := bind_eq_ok.mp h
    obtain ⟨⟨last, later⟩, hacts, h⟩ := bind_eq_ok.mp h
    cases h
    have hgrown := grown_act hopen hact
    exact hgrown.trans (ih (hgrown.info ▸ hopen) hacts)

theorem acts_presize {actions : List PageAction} (hsized : ∀ action ∈ actions, action.Sized)
    {references : List Bitmap} {total : Nat}
    (h : page.acts settings actions = .ok (page', references)) (hle : page'.bitmap.height ≤ total) :
    (page.presize total).acts settings actions = .ok (page'.presize total, references) := by
  induction actions generalizing page references with
  | nil =>
    cases h
    rfl
  | cons action rest ih =>
    obtain ⟨⟨next, first⟩, hact, h⟩ := bind_eq_ok.mp h
    obtain ⟨⟨last, later⟩, hacts, h⟩ := bind_eq_ok.mp h
    cases h
    have hnext : next.info.height = none := (grown_act hopen hact).info ▸ hopen
    have hfirst := act_presize hopen (hsized action List.mem_cons_self) hact
      ((grown_acts hnext hacts).le.trans hle)
    have hrest := ih hnext (fun action hmem => hsized action (List.mem_cons_of_mem _ hmem)) hacts
    exact bind_eq_ok.mpr ⟨_, hfirst, bind_eq_ok.mpr ⟨_, hrest, rfl⟩⟩

omit hopen

/-- A page starts with one colour. -/
theorem start_eq_ok {info : PageInfo} {start : OpenPage} :
    OpenPage.start settings info = .ok start ↔ info.width ≠ 0 ∧
      info.width * info.height.getD 0 ≤ settings.maxPixelCount ∧
        start = { info, bitmap := .filled info.width (info.height.getD 0) info.startsBlack } := by
  have hblank (b : Bitmap) (hb : b = .blank info.width (info.height.getD 0)) :
      (if info.startsBlack then b.fill true else b) =
        .filled info.width (info.height.getD 0) info.startsBlack := by
    subst hb
    cases info.startsBlack <;> rfl
  unfold OpenPage.start
  by_cases hwidth : info.width = 0
  · rw [if_pos hwidth]
    exact ⟨fun h => absurd h throw_ne_ok, fun h => absurd hwidth h.1⟩
  · rw [if_neg hwidth]
    constructor
    · intro h
      obtain ⟨blank, hcreate, h⟩ := bind_eq_ok.mp h
      obtain ⟨hfits, heq⟩ := Bitmap.create_eq_ok.mp hcreate
      obtain rfl := pure_eq_ok.mp h
      exact ⟨hwidth, hfits, by rw [hblank blank heq]⟩
    · rintro ⟨-, hfits, rfl⟩
      exact bind_eq_ok.mpr ⟨_, Bitmap.create_eq_ok.mpr ⟨hfits, rfl⟩,
        pure_eq_ok.mpr (by rw [hblank _ rfl])⟩

/-- A page of given height starts as one of open height would look in the end. -/
theorem start_presize {info : PageInfo} (hopen : info.height = none) {start : OpenPage}
    (h : OpenPage.start settings info = .ok start) {total : Nat}
    (hfits : info.width * total ≤ settings.maxPixelCount) :
    OpenPage.start settings { info with height := some total } = .ok (start.presize total) := by
  obtain ⟨hwidth, -, rfl⟩ := start_eq_ok.mp h
  refine start_eq_ok.mpr ⟨hwidth, hfits, ?_⟩
  have hfilled : (Bitmap.filled info.width 0 info.startsBlack).extendHeight total info.startsBlack =
      .filled info.width total info.startsBlack := by
    refine Bitmap.ext_get (Bitmap.width_extendHeight ..)
      ((Bitmap.height_extendHeight ..).trans (Nat.zero_max total)) fun x y => ?_
    have hwidth : (Bitmap.filled info.width 0 info.startsBlack).width = info.width := rfl
    have hheight : (Bitmap.filled info.width 0 info.startsBlack).height = 0 := rfl
    rw [Bitmap.get_extendHeight, Bitmap.get_filled, Bitmap.get_filled, hwidth, hheight]
    by_cases hin : x < info.width ∧ y < total
    · simp [hin]
    · rcases Decidable.not_and_iff_not_or_not.mp hin with h | h <;> simp [h]
  unfold presize
  rw [hopen, Option.getD_none, hfilled]
  rfl

/-- A page whose height isn't given comes out as if its final height had been given. Its height is
that of the lowest row that was asked for, and nothing that was refined on the way is different. -/
theorem acts_finalHeight {info : PageInfo} (hopen : info.height = none) {start page : OpenPage}
    {actions : List PageAction} (hsized : ∀ action ∈ actions, action.Sized)
    {references : List Bitmap} (hstart : OpenPage.start settings info = .ok start)
    (hacts : start.acts settings actions = .ok (page, references)) :
    page.bitmap.height = (actions.map (·.bottom settings)).foldr max 0 ∧
    ∃ start' page', OpenPage.start settings { info with height := some page.bitmap.height } =
        .ok start' ∧
      start'.acts settings actions = .ok (page', references) ∧ page'.bitmap = page.bitmap := by
  obtain ⟨-, -, rfl⟩ := start_eq_ok.mp hstart
  have hgrown := grown_acts hopen hacts
  have hzero : info.height.getD 0 = 0 := by rw [hopen, Option.getD_none]
  refine ⟨?_, _, page.presize page.bitmap.height, start_presize hopen hstart ?_,
    acts_presize hopen hsized hacts (Nat.le_refl _), Bitmap.extendHeight_of_le (Nat.le_refl _)⟩
  · have hheight := hgrown.height
    rwa [show (Bitmap.filled info.width (info.height.getD 0) info.startsBlack).height = 0 from hzero,
      Nat.zero_max] at hheight
  · refine hgrown.fits ?_
    rw [hzero]
    exact Nat.zero_le _

/-- A black page on which a region is drawn and a stripe is ended, and which grows once more for a
refinement of its lowest rows. -/
theorem acts_finalHeight_refined :
    let info : PageInfo := { width := 3, height := none, startsBlack := true }
    let actions : List PageAction := [.draw ⟨⟨2, 1, 1, 1, .xor⟩, .filled 2 1 true⟩, .endStripe 3,
      .refine .immediate #[0, 0, 0, 2, 0, 0, 0, 2, 0, 0, 0, 0, 0, 0, 0, 3, 4, 1, 0x84, 0xC7]]
    ∃ start page references, info.height = none ∧ (∀ action ∈ actions, action.Sized) ∧
      OpenPage.start {} info = .ok start ∧ start.acts {} actions = .ok (page, references) ∧
      page.bitmap.height = 5 ∧
      ∃ start' page', OpenPage.start {} { info with height := some page.bitmap.height } =
          .ok start' ∧
        start'.acts {} actions = .ok (page', references) ∧ page'.bitmap = page.bitmap := by
  intro info actions
  have hsized : ∀ action ∈ actions, action.Sized := by
    simp only [actions, List.forall_mem_cons]
    exact ⟨⟨rfl, rfl⟩, trivial, trivial, by simp⟩
  have hstart : OpenPage.start {} info = .ok ⟨info, .filled 3 0 true, #[]⟩ := rfl
  have hacts : ((⟨info, .filled 3 0 true, #[]⟩ : OpenPage).acts {} actions).isOk := by
    decide +kernel
  obtain ⟨⟨page, references⟩, hacts⟩ := exists_of_isOk hacts
  have hbottom : (actions.map (·.bottom {})).foldr max 0 = 5 := by decide +kernel
  obtain ⟨hheight, hsame⟩ := acts_finalHeight rfl hsized hstart hacts
  exact ⟨_, page, references, rfl, hsized, hstart, hacts, hheight.trans hbottom, hsame⟩

end OpenPage

/-! ## Segments of an open page -/

namespace Assembly

open OpenPage

variable {settings : DecodeSettings} {shared : Option Store} {a b : Assembly} {segment : Segment}
  {page : OpenPage}

theorem openPages_setPage {number : Nat} {page : OpenPage} :
    (a.setPage number page).openPages[number]? = some page :=
  Numbered.get?_insert_self

/-- Placing a region does to its page what the page does with it. -/
theorem Placed.place_eq {header : SegmentHeader} {use : RegionUse} {region : Region}
    (h : Placed settings header use region a b) (hp : a.openPages[header.page]? = some page) :
    ∃ page', page.place settings use region = .ok page' ∧
      b.openPages[header.page]? = some page' := by
  unfold OpenPage.place
  cases h with
  | stored kept eq => exact ⟨page, if_pos kept, eq ▸ hp⟩
  | drawn shown old draw eq =>
    obtain rfl := Option.some.inj (hp.symm.trans old)
    exact ⟨_, (if_neg shown).trans draw, eq ▸ openPages_setPage⟩

/-- A run of actions leads from one page to another. -/
def Leads (settings : DecodeSettings) (page page' : OpenPage) : Prop :=
  ∃ actions references, (∀ action ∈ actions, action.Sized) ∧
    page.acts settings actions = .ok (page', references)

theorem Leads.refl (settings : DecodeSettings) (page : OpenPage) : Leads settings page page :=
  ⟨[], [], by simp, rfl⟩

theorem Leads.head {action : PageAction} (hsized : action.Sized) {next page' : OpenPage}
    {references : List Bitmap} (hact : page.act settings action = .ok (next, references))
    (h : Leads settings next page') : Leads settings page page' := by
  obtain ⟨actions, later, hall, hacts⟩ := h
  exact ⟨action :: actions, references ++ later, List.forall_mem_cons.mpr ⟨hsized, hall⟩,
    bind_eq_ok.mpr ⟨_, hact, bind_eq_ok.mpr ⟨_, hacts, rfl⟩⟩⟩

theorem leads_of_place {use : RegionUse} {region : Region} (hsized : region.Sized)
    {page' : OpenPage} (h : page.place settings use region = .ok page') :
    Leads settings page page' := by
  have hdrawn : (PageAction.draw region).Sized := hsized
  unfold OpenPage.place at h
  split at h
  · exact Except.ok.inj h ▸ .refl settings page
  · exact .head hdrawn (bind_eq_ok.mpr ⟨_, h, rfl⟩) (.refl settings page')

section Decode

variable (hp : a.openPages[segment.header.page]? = some page)

include hp

theorem Noted.leads {use : RegionUse} {decoded : TextRegion}
    (h : Noted segment.header use decoded a b) :
    ∃ page', b.openPages[segment.header.page]? = some page' ∧
      ∀ page'', Leads settings page' page'' → Leads settings page page'' := by
  cases h with
  | stored _ eq => exact ⟨page, eq ▸ hp, fun _ h => h⟩
  | noted _ old eq =>
    obtain rfl := Option.some.inj (hp.symm.trans old)
    have hsized : (PageAction.note ⟨segment.header.number, decoded.region.info.x,
      decoded.region.info.y, decoded.placements⟩).Sized := trivial
    exact ⟨_, eq ▸ openPages_setPage, fun _ h => .head hsized rfl h⟩

/-- Refining a part of the page is one action, drawing another region at most one. -/
theorem leads_of_refinement {use : RegionUse} {bitmap : Bitmap} {region : Region} {c : Assembly}
    (h : Referenced settings shared segment a bitmap c)
    (hregion : Refinement.decodeRegion settings segment.data bitmap = .ok region)
    (placed : Placed settings segment.header use region c b) :
    ∃ page', Leads settings page page' ∧ b.openPages[segment.header.page]? = some page' := by
  cases h with
  | region _ _ _ _ eq =>
    obtain ⟨page', hplace, hpage'⟩ := placed.place_eq (eq ▸ hp)
    exact ⟨page', leads_of_place (Refinement.made_of_decodeRegion hregion).toSized hplace, hpage'⟩
  | page read _ old makeRoom crop eq =>
    obtain rfl := Option.some.inj (hp.symm.trans old)
    obtain ⟨page', hplace, hpage'⟩ := placed.place_eq (eq ▸ openPages_setPage)
    have hact : page.act settings (.refine use segment.data) = .ok (page', [bitmap]) :=
      bind_eq_ok.mpr ⟨_, read, bind_eq_ok.mpr ⟨_, makeRoom, bind_eq_ok.mpr ⟨_, crop,
        bind_eq_ok.mpr ⟨_, hregion, bind_eq_ok.mpr ⟨_, hplace, rfl⟩⟩⟩⟩⟩
    have hrefined : (PageAction.refine use segment.data).Sized := trivial
    exact ⟨page', .head hrefined hact (.refl settings page'), hpage'⟩

theorem DecodedRegion.leads {use : RegionUse} {coding : RegionCoding}
    (h : DecodedRegion settings shared segment use a b coding) :
    ∃ page', Leads settings page page' ∧ b.openPages[segment.header.page]? = some page' := by
  cases h with
  | generic _ decode placed =>
    obtain ⟨page', hplace, hpage'⟩ := placed.place_eq hp
    exact ⟨page', leads_of_place (Generic.made_of_decodeRegion decode).toSized hplace, hpage'⟩
  | text _ _ decode noted placed =>
    obtain ⟨page₁, hpage₁, hleads⟩ := noted.leads hp
    obtain ⟨page', hplace, hpage'⟩ := placed.place_eq hpage₁
    have hsized := (Text.made_of_decodeRegion decode).toSized
    exact ⟨page', hleads page' (leads_of_place hsized hplace), hpage'⟩
  | refinement _ referenced decode placed => exact leads_of_refinement hp referenced decode placed

/-- A segment that is decoded ends its page, or leads from the page to another by actions. -/
theorem leads_of_decode (h : a.decode settings shared segment = .ok b) :
    segment.header.kind = .endOfPage ∨
      ∃ page', Leads settings page page' ∧ b.openPages[segment.header.page]? = some page' := by
  cases decodes_of_decode h with
  | startPage _ new => exact absurd (mem_openPages hp) new
  | endPage kind => exact .inl kind
  | @endStripe row _ _ _ grown _ _ old fits grow eq =>
    obtain rfl := Option.some.inj (hp.symm.trans old)
    have hended : (PageAction.endStripe row).Sized := trivial
    have hact : page.act settings (.endStripe row) = .ok (grown, []) :=
      bind_eq_ok.mpr ⟨_, fits, bind_eq_ok.mpr ⟨_, grow, rfl⟩⟩
    exact .inr ⟨grown, .head hended hact (.refl settings grown), eq ▸ openPages_setPage⟩
  | table _ _ eq | dictionary _ _ _ eq | ignored _ eq =>
    exact .inr ⟨page, .refl settings page, eq ▸ hp⟩
  | region _ decoded => exact .inr (decoded.leads hp)

end Decode

end Assembly
end Bilevel

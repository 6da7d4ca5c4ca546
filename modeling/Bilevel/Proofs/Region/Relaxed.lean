import Bilevel.Proofs.Bitmap.Pixels
import Bilevel.Proofs.Steps
import Bilevel.Region.Refinement

/-!
# Regions under relaxed settings

Settings are asked in two places only: how large a bitmap may be, and whether reserved bits have to
be clear. In both of them, other settings can turn a success into an error or the other way round,
but they never make another success of it. So what succeeds under settings still does, with the same
result, under any that are more relaxed.

## Main definitions

* `DecodeSettings.Relaxed` — settings that allow at least as much.
* `Survives` — what one computation gives, another one gives as well.
* `Persists` — the same for computations with a state.

## Main results

* `Generic.survives_decodeRegion`, `Refinement.survives_decodeRegion` — a decoded region survives.
-/

namespace Bilevel

/-- The second settings allow whatever the first ones allow: they have no smaller limit, and check
reserved bits only if the first ones do. -/
structure DecodeSettings.Relaxed (settings settings' : DecodeSettings) : Prop where
  maxPixelCount : settings.maxPixelCount ≤ settings'.maxPixelCount
  strict : settings'.strict = true → settings.strict = true

/-- If the first computation succeeds, so does the second, with a related result. -/
inductive Survives {ε α β : Type} (R : α → β → Prop) : Except ε α → Except ε β → Prop
  | ok {a : α} {b : β} (h : R a b) : Survives R (.ok a) (.ok b)
  | error (e : ε) (y : Except ε β) : Survives R (.error e) y

namespace Survives

variable {ε α β γ : Type} {R : α → β → Prop} {x : Except ε α} {y : Except ε β}

theorem refl (x : Except ε α) : Survives Eq x x := by
  cases x with
  | ok a => exact .ok rfl
  | error e => exact .error e _

theorem eq_ok {y : Except ε α} (h : Survives Eq x y) {a : α} (ha : x = .ok a) : y = .ok a := by
  cases h with
  | ok h => exact h ▸ ha
  | error e => cases ha

theorem mono {S : α → β → Prop} (h : Survives R x y) (hRS : ∀ a b, R a b → S a b) :
    Survives S x y := by
  cases h with
  | ok h => exact .ok (hRS _ _ h)
  | error e => exact .error e _

/-- Computations survive if their first steps do and what comes next does. -/
theorem bind {α' β' : Type} {S : α' → β' → Prop} {f : α → Except ε α'} {g : β → Except ε β'}
    (h : Survives R x y) (hfg : ∀ a b, R a b → Survives S (f a) (g b)) :
    Survives S (x >>= f) (y >>= g) := by
  cases h with
  | ok h => exact hfg _ _ h
  | error e => exact .error e _

theorem bind_eq {α' β' : Type} {S : α' → β' → Prop} {y : Except ε α} {f : α → Except ε α'}
    {g : α → Except ε β'} (h : Survives Eq x y) (hfg : ∀ a, Survives S (f a) (g a)) :
    Survives S (x >>= f) (y >>= g) :=
  h.bind fun a _ heq => heq ▸ hfg a

/-- The same first step leads on to what survives. -/
theorem step {α' β' : Type} {S : α' → β' → Prop} {f : α → Except ε α'} {g : α → Except ε β'}
    (hfg : ∀ a, Survives S (f a) (g a)) : Survives S (x >>= f) (x >>= g) :=
  (refl x).bind_eq hfg

theorem throw_bind {α' : Type} {S : γ → β → Prop} (e : ε) {f : α' → Except ε γ} :
    Survives S (MonadExcept.throw e >>= f) y := .error e y

end Survives

/-- Wherever both computations start, if the first one succeeds, so does the second, with a related
result and in the same state. -/
def Persists {ε σ α β : Type} (R : α → β → Prop) (m : StateT σ (Except ε) α)
    (m' : StateT σ (Except ε) β) : Prop :=
  ∀ s, Survives (fun x y => R x.1 y.1 ∧ x.2 = y.2) (m s) (m' s)

namespace Persists

variable {ε σ α β α' β' : Type} {R : α → β → Prop} {S : α' → β' → Prop}
  {m : StateT σ (Except ε) α} {m' : StateT σ (Except ε) β}

theorem of_survives {m' : StateT σ (Except ε) α} (h : ∀ s, Survives Eq (m s) (m' s)) :
    Persists Eq m m' := fun s =>
  (h s).mono fun _ _ heq => ⟨congrArg Prod.fst heq, congrArg Prod.snd heq⟩

theorem survives {m' : StateT σ (Except ε) α} (h : Persists Eq m m') (s : σ) :
    Survives Eq (m s) (m' s) := (h s).mono fun _ _ heq => Prod.ext heq.1 heq.2

theorem refl (m : StateT σ (Except ε) α) : Persists Eq m m := of_survives fun s => .refl (m s)

theorem pure {a : α} {b : β} (h : R a b) :
    Persists R (pure a : StateT σ (Except ε) α) (pure b) := fun _ => .ok ⟨h, rfl⟩

theorem throw (e : ε) : Persists R (throw e) m' := fun s => .error e (m' s)

theorem bind {f : α → StateT σ (Except ε) α'} {g : β → StateT σ (Except ε) β'}
    (h : Persists R m m') (hfg : ∀ a b, R a b → Persists S (f a) (g b)) :
    Persists S (m >>= f) (m' >>= g) := fun s => (h s).bind fun ⟨a, t⟩ ⟨b, _⟩ ⟨hab, ht⟩ => by
  cases ht
  exact hfg a b hab t

theorem bind_eq {m' : StateT σ (Except ε) α} {f : α → StateT σ (Except ε) α'}
    {g : α → StateT σ (Except ε) β'} (h : Persists Eq m m') (hfg : ∀ a, Persists S (f a) (g a)) :
    Persists S (m >>= f) (m' >>= g) :=
  h.bind fun a _ heq => heq ▸ hfg a

theorem step {f : α → StateT σ (Except ε) α'} {g : α → StateT σ (Except ε) β'}
    (hfg : ∀ a, Persists S (f a) (g a)) : Persists S (m >>= f) (m >>= g) :=
  (refl m).bind_eq hfg

theorem lift {x y : Except ε α} (h : Survives Eq x y) :
    Persists Eq (liftM x : StateT σ (Except ε) α) (liftM y) :=
  of_survives fun _ => h.bind_eq fun _ => .refl _

theorem throw_bind (e : ε) {f : α' → StateT σ (Except ε) α} :
    Persists R (MonadExcept.throw e >>= f) m' := fun s => .error e (m' s)

end Persists

/-! ## Where settings are asked -/

variable {settings settings' : DecodeSettings} (h : settings.Relaxed settings')

namespace DecodeSettings

include h in
theorem Relaxed.checkReserved (reserved : Nat) :
    Survives Eq (settings.checkReserved reserved) (settings'.checkReserved reserved) := by
  unfold DecodeSettings.checkReserved
  split
  · exact .error _ _
  · next hclear =>
    rw [if_neg]
    · exact .ok rfl
    · simp only [Bool.and_eq_true, not_and] at hclear ⊢
      exact fun hstrict => hclear (h.strict hstrict)

end DecodeSettings

theorem Bitmap.survives_create {maxPixels maxPixels' : Nat} (h : maxPixels ≤ maxPixels')
    (width height : Nat) :
    Survives Eq (create maxPixels width height) (create maxPixels' width height) := by
  unfold create
  split
  · exact .error _ _
  · rw [if_neg (by omega)]
    exact .ok rfl

theorem Bitmap.survives_crop {maxPixels maxPixels' : Nat} (h : maxPixels ≤ maxPixels')
    (b : Bitmap) (x y width height : Nat) :
    Survives Eq (b.crop maxPixels x y width height) (b.crop maxPixels' x y width height) := by
  unfold crop
  split
  · exact .error _ _
  · rw [if_neg (by omega)]
    exact .ok rfl

/-! ## Regions -/

include h

theorem RegionInfo.persists_read : Persists Eq (read settings) (read settings') := by
  refine .step fun width => .step fun height => .step fun x => .step fun y => .step fun flags => ?_
  split
  · dsimp only
    split
    · exact .throw_bind _
    · exact .bind_eq (.lift (h.checkReserved _)) fun _ => .refl _
  · exact .refl _

namespace Generic

theorem persists_readHeader : Persists Eq (readHeader settings) (readHeader settings') := by
  refine .bind_eq (RegionInfo.persists_read h) fun info => .step fun flags => ?_
  dsimp only
  split
  · exact .throw_bind _
  split
  · split
    · exact .throw_bind _
    · exact .bind_eq (.lift (h.checkReserved _)) fun _ =>
        .bind_eq (.lift (h.checkReserved _)) fun _ => .refl _
  · exact .bind_eq (.lift (h.checkReserved _)) fun _ => .refl _

theorem survives_decodeRegion (data : Bytes) (openLength : Bool) :
    Survives Eq (decodeRegion settings data openLength)
      (decodeRegion settings' data openLength) := by
  refine .bind_eq ((persists_readHeader h).survives _) fun ⟨⟨info, params⟩, r⟩ => ?_
  dsimp only
  split <;> exact .step fun _ =>
    .bind_eq (Bitmap.survives_create h.maxPixelCount _ _) fun _ => .refl _

end Generic

namespace Refinement

theorem persists_readHeader : Persists Eq (readHeader settings) (readHeader settings') :=
  .bind_eq (RegionInfo.persists_read h) fun _ => .step fun _ =>
    .bind_eq (.lift (h.checkReserved _)) fun _ => .refl _

theorem survives_decodeRegion (data : Bytes) (reference : Bitmap) :
    Survives Eq (decodeRegion settings data reference)
      (decodeRegion settings' data reference) := by
  refine .bind_eq ((persists_readHeader h).survives _) fun ⟨⟨info, params⟩, r⟩ => ?_
  dsimp only
  split
  · exact .throw_bind _
  · exact .bind_eq (Bitmap.survives_create h.maxPixelCount _ _) fun _ => .refl _

end Refinement
end Bilevel

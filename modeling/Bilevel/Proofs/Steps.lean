import Bilevel.Error
import Mathlib.Data.List.Basic

/-!
# Steps that may fail

A run of steps succeeds if every step does. Its result can be taken apart step by step.
-/

namespace Bilevel

section

variable {ε α β : Type} {x : Except ε α} {f : α → Except ε β} {b : β}

theorem bind_eq_ok : x >>= f = .ok b ↔ ∃ a, x = .ok a ∧ f a = .ok b := by
  cases x with
  | error e => simp [bind, Except.bind]
  | ok a => simp [bind, Except.bind]

theorem bind_eq_error {e : ε} :
    x >>= f = .error e ↔ x = .error e ∨ ∃ a, x = .ok a ∧ f a = .error e := by
  cases x with
  | error e => simp [bind, Except.bind]
  | ok a => simp [bind, Except.bind]

theorem pure_eq_ok {a b : α} : (pure a : Except ε α) = .ok b ↔ a = b := by
  simp [pure, Except.pure]

theorem exists_of_isOk {x : Except ε α} (h : x.isOk) : ∃ a, x = .ok a := by
  cases x with
  | error e => exact absurd h Bool.false_ne_true
  | ok a => exact ⟨a, rfl⟩

theorem throw_ne_ok {e : ε} : ¬(throw e : Except ε β) = .ok b := by
  simp [throw, throwThe, MonadExceptOf.throw]

end

/-- Two results are the same error, or successes that are related. -/
inductive Alike {ε α : Type} (R : α → α → Prop) : Except ε α → Except ε α → Prop
  | ok {a b : α} (h : R a b) : Alike R (.ok a) (.ok b)
  | error (e : ε) : Alike R (.error e) (.error e)

namespace Alike

variable {ε α β : Type} {R : α → α → Prop} {S : β → β → Prop} {x y : Except ε α}

theorem bind {f g : α → Except ε β} (h : Alike R x y) (hfg : ∀ a b, R a b → Alike S (f a) (g b)) :
    Alike S (x >>= f) (y >>= g) := by
  cases h with
  | ok h => exact hfg _ _ h
  | error e => exact .error e

/-- The same first step leads on to related second ones. -/
theorem bind_same {f g : α → Except ε β} (hfg : ∀ a, Alike S (f a) (g a)) :
    Alike S (x >>= f) (x >>= g) := by
  cases x with
  | ok a => exact hfg a
  | error e => exact .error e

end Alike

/-! ## Steps with a state -/

section

variable {ε σ α β : Type} {m : StateT σ (Except ε) α} {f : α → StateT σ (Except ε) β}
  {x : Except ε α} {a : α} {b : β} {s s' : σ}

theorem run_bind_ok (h : m s = .ok (a, s')) : (m >>= f) s = f a s' := by
  simp only [Bind.bind, StateT.bind, Except.bind, h]

theorem run_bind_eq_ok :
    (m >>= f) s = .ok (b, s') ↔ ∃ a s'', m s = .ok (a, s'') ∧ f a s'' = .ok (b, s') := by
  constructor
  · intro h
    obtain ⟨⟨a, s''⟩, hm, hf⟩ := bind_eq_ok.mp h
    exact ⟨a, s'', hm, hf⟩
  · rintro ⟨a, s'', hm, hf⟩
    exact (run_bind_ok hm).trans hf

theorem run_bind_eq_error {e : ε} : (m >>= f) s = .error e ↔
    m s = .error e ∨ ∃ a s'', m s = .ok (a, s'') ∧ f a s'' = .error e := by
  refine bind_eq_error.trans (or_congr_right ?_)
  exact ⟨fun ⟨⟨a, s''⟩, hm, hf⟩ => ⟨a, s'', hm, hf⟩, fun ⟨a, s'', hm, hf⟩ => ⟨(a, s''), hm, hf⟩⟩

theorem run_lift_ok (h : x = .ok a) : (liftM x : StateT σ (Except ε) α) s = .ok (a, s) := by
  rw [h]
  rfl

theorem run_lift_eq_ok :
    (liftM x : StateT σ (Except ε) α) s = .ok (a, s') ↔ x = .ok a ∧ s' = s := by
  cases x with
  | error e =>
    constructor
    · intro h
      cases h
    · rintro ⟨h, -⟩
      cases h
  | ok b =>
    constructor
    · intro h
      obtain ⟨rfl, rfl⟩ := Prod.mk.inj (Except.ok.inj h)
      exact ⟨rfl, rfl⟩
    · rintro ⟨h, rfl⟩
      exact run_lift_ok h

/-- A step that leaves the state alone. -/
theorem run_bind_lift (h : x = .ok a) : ((liftM x : StateT σ (Except ε) α) >>= f) s = f a s :=
  run_bind_ok (run_lift_ok h)

theorem run_bind_lift_error {e : ε} (h : x = .error e) :
    ((liftM x : StateT σ (Except ε) α) >>= f) s = .error e := by
  rw [h]
  rfl

theorem run_bind_get {g : σ → StateT σ (Except ε) β} : (get >>= g) s = g s s := rfl

theorem run_pure : (pure a : StateT σ (Except ε) α) s = .ok (a, s) := rfl

end

/-- What a step gives has some property whenever it succeeds. -/
def Gives {ε σ α : Type} (P : α → Prop) (m : StateT σ (Except ε) α) : Prop :=
  ∀ s a s', m s = .ok (a, s') → P a

namespace Gives

variable {ε σ α β : Type} {P : α → Prop} {Q : β → Prop} {m : StateT σ (Except ε) α}
  {f : α → StateT σ (Except ε) β}

theorem bind (h : Gives P m) (h' : ∀ a, P a → Gives Q (f a)) : Gives Q (m >>= f) := by
  intro s b s' hrun
  obtain ⟨a, s'', hm, hf⟩ := run_bind_eq_ok.mp hrun
  exact h' a (h s a s'' hm) s'' b s' hf

/-- A second step, whatever the first one gives. -/
theorem bind_any (h : ∀ a, Gives Q (f a)) : Gives Q (m >>= f) := by
  intro s b s' hrun
  obtain ⟨a, s'', -, hf⟩ := run_bind_eq_ok.mp hrun
  exact h a s'' b s' hf

theorem pure {a : α} (h : P a) : Gives P (pure a : StateT σ (Except ε) α) := by
  intro s b s' hrun
  obtain ⟨rfl, -⟩ := Prod.mk.inj (Except.ok.inj hrun)
  exact h

theorem throw (e : ε) : Gives P (throw e : StateT σ (Except ε) α) := by
  intro s b s' hrun
  cases hrun

end Gives

end Bilevel

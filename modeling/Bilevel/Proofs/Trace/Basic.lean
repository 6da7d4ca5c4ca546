import Bilevel.Proofs.Steps
import Bilevel.Trace.Symbol

/-!
# What is noted

A traced computation goes on as an untraced one does, and what it notes comes behind what was noted
before. So the two can be followed step by step together, and it can be gathered on the way what is
sure about everything that is noted.

## Main definitions

* `Traces` — a traced computation ends as an untraced one does, and all that it notes has some
  property.
* `Follows` — the same for computations that read from a source.

## Main results

* `Traces.bind`, `Follows.bind` — both are put together from steps.
* `Traces.events`, `Traces.run` — what is noted, and where it goes.
-/

namespace Bilevel

open Tracing

variable {α β : Type} {P Q : Event → Prop}

namespace Tracing

variable {m : Tracing α} {f : α → Tracing β} {trace trace' : Array Event}

theorem apply_bind_ok {a : α} (h : m trace = .ok a trace') : (m >>= f) trace = f a trace' := by
  simp only [Bind.bind, EStateM.bind, h]

theorem apply_bind_error {e : DecodeError} (h : m trace = .error e trace') :
    (m >>= f) trace = .error e trace' := by
  simp only [Bind.bind, EStateM.bind, h]

/-- What is noted whatever was noted before is what is noted first of all. -/
theorem events_eq {x : Except DecodeError α} {noted : Array Event}
    (h : ∀ trace, m trace = conclude x (trace ++ noted)) : events m = noted := by
  unfold events
  rw [h, Array.empty_append]
  cases x with
  | error e => rfl
  | ok a => rfl

end Tracing

/-- A traced computation ends as `x` does, and what it notes has the property `P`. -/
def Traces (P : Event → Prop) (m : Tracing α) (x : Except DecodeError α) : Prop :=
  ∃ noted : Array Event, (∀ e ∈ noted, P e) ∧ ∀ trace, m trace = conclude x (trace ++ noted)

namespace Traces

variable {m : Tracing α} {x : Except DecodeError α} {f : α → Tracing β}
  {g : α → Except DecodeError β}

theorem mono (h : Traces P m x) (hPQ : ∀ e, P e → Q e) : Traces Q m x := by
  obtain ⟨noted, hnoted, hm⟩ := h
  exact ⟨noted, fun e he => hPQ e (hnoted e he), hm⟩

theorem lift (x : Except DecodeError α) : Traces P (liftM x) x :=
  ⟨#[], fun _ he => absurd he (Array.not_mem_empty _), fun _ => rfl⟩

theorem pure (a : α) : Traces P (pure a) (pure a) := lift (.ok a)

theorem throw (e : DecodeError) : Traces P (throw e : Tracing α) (throw e) := lift (.error e)

theorem note {e : Event} (h : P e) : Traces P (note e) (.ok ()) :=
  ⟨#[e], by simpa using h, fun _ => rfl⟩

/-- A second step follows if the first one succeeds. What is noted in both is noted. -/
theorem bind (hm : Traces P m x) (hf : ∀ a, x = .ok a → Traces P (f a) (g a)) :
    Traces P (m >>= f) (x >>= g) := by
  obtain ⟨noted, hnoted, hm⟩ := hm
  cases x with
  | error e => exact ⟨noted, hnoted, fun trace => apply_bind_error (hm trace)⟩
  | ok a =>
    obtain ⟨more, hmore, hf⟩ := hf a rfl
    refine ⟨noted ++ more, fun e he => ?_, fun trace => ?_⟩
    · exact (Array.mem_append.mp he).elim (hnoted e) (hmore e)
    · rw [← Array.append_assoc]
      exact (apply_bind_ok (hm trace)).trans (hf (trace ++ noted))

/-- A first step that notes nothing. -/
theorem lift_bind (hf : ∀ a, x = .ok a → Traces P (f a) (g a)) :
    Traces P (liftM x >>= f) (x >>= g) :=
  (lift x).bind hf

/-- A first step that only notes something. -/
theorem note_bind {e : Event} (he : P e) (h : Traces P m x) :
    Traces P (Tracing.note e >>= fun _ => m) x :=
  (note he).bind (g := fun _ => x) fun _ _ => h

/-- A check that comes before all the rest. -/
theorem guard {c : Prop} [Decidable c] {e : DecodeError} {f : Unit → Tracing β}
    {g : Unit → Except DecodeError β} (h : ¬c → Traces P (f ()) (g ())) :
    Traces P (if c then MonadExcept.throw e >>= f else f ())
      (if c then MonadExcept.throw e >>= g else g ()) := by
  split
  · exact (throw e).bind fun _ hok => absurd hok throw_ne_ok
  · next hc => exact h hc

theorem make {b : Bitmap} (h : P (.made b.width b.height)) : Traces P (make b) (.ok b) :=
  note_bind h (pure b)

/-- A first step that makes a bitmap. -/
theorem make_bind {b : Bitmap} {f : Bitmap → Tracing β} {x : Except DecodeError β}
    (h : P (.made b.width b.height)) (hf : Traces P (f b) x) : Traces P (Tracing.make b >>= f) x :=
  (make h).bind (g := fun _ => x) fun _ hok => Except.ok.inj hok ▸ hf

/-- The events come behind those that were noted before. -/
theorem run (h : Traces P m x) (trace : Array Event) :
    m trace = conclude x (trace ++ Tracing.events m) := by
  obtain ⟨noted, -, hm⟩ := h
  rw [events_eq hm]
  exact hm trace

theorem events (h : Traces P m x) : ∀ e ∈ events m, P e := by
  obtain ⟨noted, hnoted, hm⟩ := h
  rw [events_eq hm]
  exact hnoted

end Traces

/-! ## Sources -/

/-- A traced decoding reads what `x` reads, from any source, and what it notes has the property
`P`. -/
def Follows (P : Event → Prop) (m : TracedDecoding α) (x : Decoding α) : Prop :=
  ∀ s, Traces P (m s) (x s)

namespace Follows

variable {m : TracedDecoding α} {x : Decoding α} {f : α → TracedDecoding β} {g : α → Decoding β}
  {R : α → Prop}

theorem pure (a : α) : Follows P (pure a) (pure a) := fun s => Traces.pure (a, s)

theorem throw (e : DecodeError) : Follows P (throw e : TracedDecoding α) (throw e) :=
  fun _ => Traces.throw e

theorem lift (x : Decoding α) : Follows P (liftM x) x := fun s => Traces.lift (x s)

/-- A step that doesn't look at the source. -/
theorem check (x : Except DecodeError α) : Follows P (liftM x) (liftM x) := by
  intro s
  cases x with
  | error e => exact .throw e
  | ok a => exact .pure (a, s)

theorem bind (hm : Follows P m x) (hgives : Gives R x) (hf : ∀ a, R a → Follows P (f a) (g a)) :
    Follows P (m >>= f) (x >>= g) :=
  fun s => (hm s).bind fun (a, s') hok => hf a (hgives s a s' hok) s'

/-- A second step, whatever the first one gives. -/
theorem bind_any (hm : Follows P m x) (hf : ∀ a, Follows P (f a) (g a)) :
    Follows P (m >>= f) (x >>= g) :=
  hm.bind (R := fun _ => True) (fun _ _ _ _ => trivial) fun a _ => hf a

/-- A first step that notes nothing. -/
theorem lift_bind (hgives : Gives R x) (hf : ∀ a, R a → Follows P (f a) (g a)) :
    Follows P (liftM x >>= f) (x >>= g) :=
  (lift x).bind hgives hf

theorem lift_bind_any (hf : ∀ a, Follows P (f a) (g a)) : Follows P (liftM x >>= f) (x >>= g) :=
  (lift x).bind_any hf

theorem check_bind {x : Except DecodeError α} (hf : ∀ a, x = .ok a → Follows P (f a) (g a)) :
    Follows P (liftM x >>= f) (liftM x >>= g) :=
  (check x).bind (fun _ _ _ h => (run_lift_eq_ok.mp h).1) hf

/-- A traced step that doesn't look at the source. -/
theorem traced_bind {m : Tracing α} {x : Except DecodeError α} (hm : Traces P m x)
    (hf : ∀ a, x = .ok a → Follows P (f a) (g a)) : Follows P (liftM m >>= f) (liftM x >>= g) := by
  have hlift : Follows P (liftM m) (liftM x) := fun s => hm.bind fun a _ => .pure (a, s)
  exact hlift.bind (fun _ _ _ h => (run_lift_eq_ok.mp h).1) hf

/-- A step that looks at the source only. -/
theorem get_bind {f : Source → TracedDecoding β} {g : Source → Decoding β}
    (h : ∀ s, Traces P (f s s) (g s s)) : Follows P (get >>= f) (get >>= g) :=
  h

end Follows
end Bilevel

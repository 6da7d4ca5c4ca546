import Bilevel.Bits.Reader
import Bilevel.Proofs.Steps

/-!
# Reads that can be moved

What is read depends on the data from the position on, not on what stands before it. If the read
succeeds, it doesn't depend either on what comes after the data, as long as this is only more data.
Both hold of single fields, and of reads that are put together from them.

## Main definitions

* `Reader.within` — the same place when other data stands around the data.
* `Movable` — a read that takes up at least a given number of bytes, and finds the same in the same
  place within other data.

## Main results

* `Movable.bind` — a read after another one.
* `movable_tail` — a read that depends on the data as far as it goes.
-/

namespace Bilevel

namespace Reader

/-- The position is on a byte boundary in the data. -/
structure Inside (r : Reader) : Prop where
  aligned : 8 ∣ r.position
  le : r.position ≤ 8 * r.data.size

/-- The same place when other data stands in front of the data and behind it. -/
def within (front back : Bytes) (r : Reader) : Reader :=
  ⟨front ++ (r.data ++ back), 8 * front.size + r.position⟩

theorem inside_ofBytes (data : Bytes) : (ofBytes data).Inside := ⟨Nat.dvd_zero 8, Nat.zero_le _⟩

section

variable {r : Reader} (front back : Bytes)

theorem start_within : (r.within front back).position / 8 = front.size + r.position / 8 := by
  unfold within
  dsimp only
  omega

theorem size_within :
    (r.within front back).data.size = front.size + (r.data.size + back.size) := by
  simp [within]

theorem extract_within {start stop : Nat} (h : stop ≤ r.data.size) :
    (r.within front back).data.extract (front.size + start) (front.size + stop) =
      r.data.extract start stop := by
  simp [within, Array.extract_append, Nat.sub_eq_zero_of_le h]

/-- What stands behind the data comes behind what is left of it. -/
theorem tail_within (h : r.Inside) : (r.within front back).tail = r.tail ++ back := by
  have hle := h.le
  have hstart : r.position / 8 - r.data.size = 0 := by omega
  have hfront : front.extract (front.size + r.position / 8)
      (front.size + (r.data.size + back.size)) = #[] :=
    Array.extract_empty_of_size_le_start (Nat.le_add_right _ _)
  have hdata : r.data.extract (r.position / 8) (r.data.size + back.size) =
      r.data.extract (r.position / 8) r.data.size :=
    Array.ext (by simp) fun i _ _ => by simp
  unfold tail
  rw [start_within, size_within]
  simp only [within, Array.extract_append, hfront, hdata, hstart, Nat.add_sub_cancel_left,
    Array.extract_size, Array.empty_append]

theorem bytesLeft_within (h : r.Inside) :
    (r.within front back).bytesLeft = r.bytesLeft + back.size := by
  have hle := h.le
  unfold bytesLeft
  rw [start_within, size_within]
  omega

end

end Reader

open Reader

/-- A read that takes up at least `count` bytes when it succeeds, and that finds the same when other
data stands in front. Other data behind makes no difference to a success. -/
structure Movable {α : Type} (count : Nat) (m : Reading α) : Prop where
  inside : ∀ {r a s}, r.Inside → m r = .ok (a, s) →
    s.Inside ∧ s.data = r.data ∧ r.position + 8 * count ≤ s.position
  extend : ∀ {r a s}, r.Inside → m r = .ok (a, s) → ∀ front back,
    m (r.within front back) = .ok (a, s.within front back)
  fail : ∀ {r e}, r.Inside → m r = .error e → ∀ front, m (r.within front #[]) = .error e

section

variable {α β : Type} {m : Reading α} {f : α → Reading β} {count count' : Nat}

theorem Movable.mono (h : Movable count m) (hle : count' ≤ count) : Movable count' m where
  inside hr hm := by
    obtain ⟨hs, hdata, hposition⟩ := h.inside hr hm
    exact ⟨hs, hdata, by omega⟩
  extend := h.extend
  fail := h.fail

theorem Movable.zero (h : Movable count m) : Movable 0 m := h.mono (Nat.zero_le count)

theorem Movable.bind (h : Movable count m) (h' : ∀ a, Movable count' (f a)) :
    Movable (count' + count) (m >>= f) where
  inside hr hm := by
    obtain ⟨a, s, hfirst, hsecond⟩ := run_bind_eq_ok.mp hm
    obtain ⟨hs, hdata, hposition⟩ := h.inside hr hfirst
    obtain ⟨ht, hdata', hposition'⟩ := (h' a).inside hs hsecond
    exact ⟨ht, hdata'.trans hdata, by omega⟩
  extend hr hm front back := by
    obtain ⟨a, s, hfirst, hsecond⟩ := run_bind_eq_ok.mp hm
    exact run_bind_eq_ok.mpr ⟨a, _, h.extend hr hfirst front back,
      (h' a).extend (h.inside hr hfirst).1 hsecond front back⟩
  fail {r e} hr hm front := by
    cases hfirst : m r with
    | error e' =>
      have heq : (m >>= f) r = .error e' := by
        simp only [Bind.bind, StateT.bind, Except.bind, hfirst]
      obtain rfl := Except.error.inj (heq.symm.trans hm)
      have hmoved := h.fail hr hfirst front
      simp only [Bind.bind, StateT.bind, Except.bind, hmoved]
    | ok result =>
      obtain ⟨a, s⟩ := result
      rw [run_bind_ok hfirst] at hm
      rw [run_bind_ok (h.extend hr hfirst front #[])]
      exact (h' a).fail (h.inside hr hfirst).1 hm front

theorem movable_pure (a : α) : Movable 0 (pure a : Reading α) where
  inside hr hm := by
    cases hm
    exact ⟨hr, rfl, Nat.le_refl _⟩
  extend _ hm front back := by
    cases hm
    rfl
  fail _ hm := nomatch hm

/-- A read that never succeeds takes up any number of bytes. -/
theorem movable_throw (e : DecodeError) : Movable count (throw e : Reading α) where
  inside _ hm := nomatch hm
  extend _ hm := nomatch hm
  fail _ hm _ := hm

/-- A check that there is enough data. -/
theorem movable_enough {needed : Nat} {e : DecodeError} (h : Movable count m) :
    Movable count (get >>= fun r => if r.bytesLeft < needed then throw e else m) where
  inside {r a s} hr hm := by
    rw [run_bind_get] at hm
    split at hm
    · cases hm
    · exact h.inside hr hm
  extend {r a s} hr hm front back := by
    rw [run_bind_get] at hm ⊢
    split at hm
    · cases hm
    · next henough =>
      rw [if_neg (by rw [bytesLeft_within front back hr]; omega)]
      exact h.extend hr hm front back
  fail {r e} hr hm front := by
    rw [run_bind_get] at hm ⊢
    rw [bytesLeft_within front #[] hr]
    split at hm
    · next hshort =>
      rw [if_pos (by simpa using hshort)]
      exact hm
    · next henough =>
      rw [if_neg (by simpa using henough)]
      exact h.fail hr hm front

/-- A step that depends on all data that is left. More data behind makes no difference to its
success. -/
theorem movable_tail {g : Bytes → Except DecodeError α}
    (hg : ∀ {data a}, g data = .ok a → ∀ back, g (data ++ back) = .ok a)
    (h : ∀ a, Movable count (f a)) :
    Movable count (get >>= fun r => (liftM (g r.tail) : Reading α) >>= f) where
  inside {r b s} hr hm := by
    rw [run_bind_get] at hm
    cases hgr : g r.tail with
    | error e =>
      rw [hgr] at hm
      cases hm
    | ok a =>
      rw [run_bind_lift hgr] at hm
      exact (h a).inside hr hm
  extend {r b s} hr hm front back := by
    rw [run_bind_get] at hm ⊢
    cases hgr : g r.tail with
    | error e =>
      rw [hgr] at hm
      cases hm
    | ok a =>
      rw [run_bind_lift hgr] at hm
      rw [tail_within front back hr, run_bind_lift (hg hgr back)]
      exact (h a).extend hr hm front back
  fail {r e} hr hm front := by
    rw [run_bind_get] at hm ⊢
    rw [tail_within front #[] hr, Array.append_empty]
    cases hgr : g r.tail with
    | error e' =>
      rw [hgr] at hm
      cases hm
      rfl
    | ok a =>
      rw [run_bind_lift hgr] at hm
      rw [run_bind_lift rfl]
      exact (h a).fail hr hm front

end

theorem movable_readBytes (count : Nat) : Movable count (readBytes count) where
  inside {r a s} hr hm := by
    have haligned := hr.aligned
    unfold readBytes at hm
    dsimp only at hm
    split at hm
    · next hroom =>
      cases hm
      exact ⟨⟨(Nat.dvd_add_right haligned).mpr (Nat.dvd_mul_right 8 count), by dsimp only; omega⟩,
        rfl, Nat.le_refl _⟩
    · cases hm
  extend {r a s} hr hm front back := by
    unfold readBytes at hm ⊢
    dsimp only at hm ⊢
    split at hm
    · next hroom =>
      cases hm
      rw [start_within, size_within, if_pos (by omega), Nat.add_assoc,
        extract_within front back hroom]
      unfold within
      rw [Nat.add_assoc]
    · cases hm
  fail {r e} hr hm front := by
    unfold readBytes at hm ⊢
    dsimp only at hm ⊢
    split at hm
    · cases hm
    · next hroom =>
      rw [start_within, size_within, if_neg (by simp; omega)]
      exact hm

theorem movable_readUnsigned (count : Nat) : Movable count (readUnsigned count) :=
  ((movable_readBytes count).bind fun bytes => movable_pure (bigEndian bytes)).mono (by omega)

end Bilevel

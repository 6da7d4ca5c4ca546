import Bilevel.Proofs.Mq.Values
import Mathlib.Logic.Function.Basic

/-!
# Coders that share a stream

Any number of integer procedures and of procedures for symbol numbers, each with contexts of its
own, and decisions besides may take turns on one stream. As long as the decoders are asked in the
order in which the encoders were called, every one of them gives back what was encoded, whatever
the others have encoded in between.

An encoder takes every signed number of 32 bits, but a decoder finds the magnitude of the smallest
one too large. The stream goes on behind it all the same.

## Main definitions

* `Coders` — what has been learnt by coders that share a stream.
* `Call`, `Request` — what is encoded next, and what a decoder is asked for.
* `Encoder.encodeCalls`, `Decoder.decodeCalls` — calls one after another.

## Main results

* `Follows.decodeCall` — a decoder that is in step answers the next call.
* `decodeCalls_finish` — all calls are answered.
-/

namespace Bilevel.Mq

/-- The contexts of `n` integer procedures and of `m` procedures for symbol numbers, and those of
single decisions. -/
structure Coders (n m : Nat) where
  integers : Fin n → Contexts
  symbolIds : Fin m → Contexts
  decisions : Contexts

/-- Coders that have learnt nothing. Symbol numbers have as many bits as `lengths` says. -/
def Coders.fresh (n : Nat) {m : Nat} (lengths : Fin m → Nat) (decisions : Contexts) :
    Coders n m where
  integers _ := Integer.freshContexts
  symbolIds k := SymbolId.freshContexts (lengths k)
  decisions := decisions

/-- What is encoded, and by which coder. -/
inductive Call (n m : Nat) where
  | integer (k : Fin n) (value : Integer.Value)
  | symbolId (k : Fin m) (id : Nat)
  | decision (i : Nat) (bit : Bool)

/-- Which decoder is asked. -/
inductive Request (n m : Nat) where
  | integer (k : Fin n)
  | symbolId (k : Fin m)
  | decision (i : Nat)

/-- What a decoder gives. -/
inductive Answer where
  | integer (value : Integer.Value)
  | symbolId (id : Nat)
  | decision (bit : Bool)

variable {n m : Nat} (lengths : Fin m → Nat)

namespace Call

/-- Whether an encoder takes this: numbers have to be signed ones of 32 bits, and symbol numbers
must have no more bits than the procedure has. -/
def Accepted : Call n m → Prop
  | integer _ value => ∀ x ∈ value, FitsSigned x
  | symbolId k id => id < 2 ^ lengths k
  | decision _ _ => True

def request : Call n m → Request n m
  | integer k _ => .integer k
  | symbolId k _ => .symbolId k
  | decision i _ => .decision i

/-- What was encoded, but for the smallest number. -/
def answer : Call n m → Except DecodeError Answer
  | integer _ value =>
    if value = some (-0x80000000) then .error .overflow else .ok (.integer value)
  | symbolId _ id => .ok (.symbolId id)
  | decision _ bit => .ok (.decision bit)

end Call

/-! ## Calls one after another -/

/-- Encode what a call says. -/
def Encoder.encodeCall (e : Encoder) (coders : Coders n m) : Call n m → Coders n m × Encoder
  | .integer k value =>
    let (contexts, e) := Integer.encode e (coders.integers k) value
    ({ coders with integers := Function.update coders.integers k contexts }, e)
  | .symbolId k id =>
    let (contexts, e) := SymbolId.encode e (coders.symbolIds k) (lengths k) id
    ({ coders with symbolIds := Function.update coders.symbolIds k contexts }, e)
  | .decision i bit =>
    let (contexts, e) := e.encodeAt coders.decisions i bit
    ({ coders with decisions := contexts }, e)

def Encoder.encodeCalls (e : Encoder) (coders : Coders n m) : List (Call n m) → Coders n m × Encoder
  | [] => (coders, e)
  | call :: calls =>
    let (coders, e) := e.encodeCall lengths coders call
    e.encodeCalls coders calls

/-- Decode what is asked for. The decoder goes on even if this is an error. -/
def Decoder.decodeCall (d : Decoder) (coders : Coders n m) :
    Request n m → Except DecodeError Answer × Coders n m × Decoder
  | .integer k =>
    let (value, contexts, d) := Integer.decodeOn d (coders.integers k)
    (value.map .integer,
      { coders with integers := Function.update coders.integers k contexts }, d)
  | .symbolId k =>
    let (id, contexts, d) := SymbolId.decodeOn d (coders.symbolIds k) (lengths k)
    (id.map .symbolId,
      { coders with symbolIds := Function.update coders.symbolIds k contexts }, d)
  | .decision i =>
    let (bit, contexts, d) := d.decodeAt coders.decisions i
    (.ok (.decision bit), { coders with decisions := contexts }, d)

def Decoder.decodeCalls (d : Decoder) (coders : Coders n m) :
    List (Request n m) → List (Except DecodeError Answer) × Coders n m × Decoder
  | [] => ([], coders, d)
  | request :: requests =>
    let (answer, coders, d) := d.decodeCall lengths coders request
    let (answers, coders, d) := d.decodeCalls coders requests
    (answer :: answers, coders, d)

namespace Encoder

variable (e : Encoder) (coders : Coders n m)

theorem encodeCalls_cons (call : Call n m) (calls : List (Call n m)) :
    e.encodeCalls lengths coders (call :: calls) =
      (e.encodeCall lengths coders call).2.encodeCalls lengths
        (e.encodeCall lengths coders call).1 calls := rfl

theorem reaches_encodeCall (call : Call n m) : e.Reaches (e.encodeCall lengths coders call).2 := by
  cases call with
  | integer k value => exact Integer.reaches_encode ..
  | symbolId k id => exact SymbolId.reaches_encode ..
  | decision i bit => exact Reaches.encodeAt ..

theorem reaches_encodeCalls (calls : List (Call n m)) :
    e.Reaches (e.encodeCalls lengths coders calls).2 := by
  induction calls generalizing e coders with
  | nil => exact .refl e
  | cons call calls ih => exact (reaches_encodeCall lengths e coders call).trans (ih _ _)

end Encoder

/-- The smallest number is the only one of which the magnitude is too large. -/
theorem Integer.magnitude_le_iff {value : Value} (hfits : ∀ x ∈ value, FitsSigned x) :
    magnitude value ≤ 0x7FFFFFFF ↔ value ≠ some (-0x80000000) := by
  cases value with
  | none => simp [magnitude]
  | some x =>
    obtain ⟨hlow, hhigh⟩ := hfits x rfl
    simp only [magnitude, Option.map_some, Option.getD_some, ne_eq, Option.some.injEq]
    omega

section

variable {lengths} {bytes t : List UInt8} {e : Encoder} {d : Decoder} {coders : Coders n m}

/-- A decoder that is in step answers the call that is encoded next, has learnt from it what the
encoder has, and stays in step. -/
theorem Follows.decodeCall (h : Follows bytes t e d) {call : Call n m}
    (hcall : call.Accepted lengths)
    (hc : (e.encodeCall lengths coders call).2.Completes bytes) :
    ∃ d', d.decodeCall lengths coders call.request =
        (call.answer, (e.encodeCall lengths coders call).1, d') ∧
      Follows bytes t (e.encodeCall lengths coders call).2 d' := by
  cases call with
  | integer k value =>
    have hmagnitude := Integer.magnitude_le_iff hcall
    have hlarge : Integer.magnitude value ≤ 0xFFFFFFFF := by
      by_cases hvalue : value = some (-0x80000000)
      · subst hvalue
        decide
      · have := hmagnitude.mpr hvalue
        omega
    obtain ⟨d', hd, h'⟩ := Integer.decodeOn_eq h hlarge hc
    refine ⟨d', ?_, h'⟩
    simp only [Call.request, Call.answer, Decoder.decodeCall, hd, Encoder.encodeCall, hmagnitude]
    by_cases hvalue : value = some (-0x80000000)
    · simp only [hvalue, ne_eq, not_true_eq_false, if_false, if_true]
      rfl
    · simp only [hvalue, ne_eq, not_false_eq_true, if_false, if_true]
      rfl
  | symbolId k id =>
    obtain ⟨d', hd, h'⟩ := SymbolId.decodeOn_encode h hcall hc
    exact ⟨d', by simp only [Call.request, Decoder.decodeCall, hd]; rfl, h'⟩
  | decision i bit =>
    obtain ⟨d', hd, h'⟩ := h.decodeAt coders.decisions i bit hc
    exact ⟨d', by simp only [Call.request, Decoder.decodeCall, hd]; rfl, h'⟩

theorem Follows.decodeCalls (h : Follows bytes t e d) {calls : List (Call n m)}
    (hcalls : ∀ call ∈ calls, call.Accepted lengths)
    (hc : (e.encodeCalls lengths coders calls).2.Completes bytes) :
    ∃ d', d.decodeCalls lengths coders (calls.map Call.request) =
        (calls.map Call.answer, (e.encodeCalls lengths coders calls).1, d') ∧
      Follows bytes t (e.encodeCalls lengths coders calls).2 d' := by
  induction calls generalizing e d coders with
  | nil => exact ⟨d, rfl, h⟩
  | cons call calls ih =>
    rw [Encoder.encodeCalls_cons] at hc ⊢
    have hready := (Encoder.reaches_encodeCall lengths e coders call).ready h.ready
    have hfirst := (Encoder.reaches_encodeCalls lengths _ _ calls).completes hready hc
    obtain ⟨d', hd, h'⟩ := h.decodeCall (hcalls call List.mem_cons_self) hfirst
    obtain ⟨d'', hd', h''⟩ := ih h' (fun c hmem => hcalls c (List.mem_cons_of_mem call hmem)) hc
    exact ⟨d'', by simp only [List.map_cons, Decoder.decodeCalls, hd, hd'], h''⟩

end

/-- Whatever integers, symbol numbers and decisions are encoded in turns by coders that share a
stream, the decoders give back in the same order, the out-of-band value included; only the smallest
signed number is an overflow. This is so whatever bytes `t` follow the stream, and whatever the
contexts of the decisions have learnt before. -/
theorem decodeCalls_finish (contexts : Contexts) {calls : List (Call n m)}
    (hcalls : ∀ call ∈ calls, call.Accepted lengths) (t : List UInt8) :
    let start : Coders n m := .fresh n lengths contexts
    let stream := (Encoder.start.encodeCalls lengths start calls).2.finish ++ t.toArray
    ((Decoder.ofBytes stream).decodeCalls lengths start (calls.map Call.request)).1 =
      calls.map Call.answer := by
  intro start stream
  have hreach := Encoder.reaches_encodeCalls lengths Encoder.start start calls
  have hdata : stream.toList =
      (Encoder.start.encodeCalls lengths start calls).2.finish.toList ++ t := by simp [stream]
  have hfollows := follows_ofBytes hreach hdata
  obtain ⟨d, hd, -⟩ := hfollows.decodeCalls hcalls (completes_flushed_of_reaches hreach)
  rw [hd]

/-- Two integer procedures and one for symbol numbers of three bits take turns. -/
def mixedCalls : List (Call 2 1) :=
  [.integer 0 none, .integer 0 (some 0), .symbolId 0 7, .integer 1 (some (-0x80000000)),
    .decision 0 true, .integer 1 (some (-4436)), .integer 0 (some 0x7FFFFFFF)]

theorem decodeCalls_finish_mixed :
    let lengths : Fin 1 → Nat := fun _ => 3
    let start : Coders 2 1 := .fresh 2 lengths #[{}]
    let stream := (Encoder.start.encodeCalls lengths start mixedCalls).2.finish ++ #[0xAC, 0xFF]
    (∀ call ∈ mixedCalls, call.Accepted lengths) ∧
      ((Decoder.ofBytes stream).decodeCalls lengths start (mixedCalls.map Call.request)).1 =
        [.ok (.integer none), .ok (.integer (some 0)), .ok (.symbolId 7), .error .overflow,
          .ok (.decision true), .ok (.integer (some (-4436))),
          .ok (.integer (some 0x7FFFFFFF))] := by
  intro lengths start stream
  have hcalls : ∀ call ∈ mixedCalls, call.Accepted lengths := by
    simp [mixedCalls, Call.Accepted, FitsSigned, lengths]
  exact ⟨hcalls, decodeCalls_finish lengths #[{}] hcalls [0xAC, 0xFF]⟩

end Bilevel.Mq

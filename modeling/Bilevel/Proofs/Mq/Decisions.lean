import Bilevel.Proofs.Mq.Sync

/-!
# Runs of decisions

A run of decisions, each in one of some contexts, is encoded and decoded one by one. The decoder
gives back the decisions, and at every time it has learnt exactly what the encoder had learnt then.
-/

namespace Bilevel.Mq

/-- Encode decisions, each in the context with the given number. -/
def Encoder.encodeAll (e : Encoder) (contexts : Contexts) :
    List (Nat × Bool) → Contexts × Encoder
  | [] => (contexts, e)
  | (i, bit) :: decisions =>
    (e.encodeAt contexts i bit).2.encodeAll (e.encodeAt contexts i bit).1 decisions

/-- Decode as many decisions as there are numbers of contexts. -/
def Decoder.decodeAll (d : Decoder) (contexts : Contexts) :
    List Nat → List Bool × Contexts × Decoder
  | [] => ([], contexts, d)
  | i :: is =>
    let (bit, contexts, d) := d.decodeAt contexts i
    let (bits, contexts, d) := d.decodeAll contexts is
    (bit :: bits, contexts, d)

namespace Encoder

variable (e : Encoder) (contexts : Contexts) (decisions more : List (Nat × Bool))

theorem encodeAll_append : e.encodeAll contexts (decisions ++ more) =
    (e.encodeAll contexts decisions).2.encodeAll (e.encodeAll contexts decisions).1 more := by
  induction decisions generalizing e contexts with
  | nil => rfl
  | cons decision decisions ih => exact ih _ _

theorem reaches_encodeAll : Reaches e (e.encodeAll contexts decisions).2 := by
  induction decisions generalizing e contexts with
  | nil => exact .refl e
  | cons decision decisions ih => exact (Reaches.encodeAt e contexts _ _).trans (ih _ _)

end Encoder

/-- A decoder in step with an encoder decodes what the encoder encodes next, for any number of
decisions. -/
theorem Synced.decodeAll {code t : List UInt8} {e : Encoder} {d : Decoder}
    (hs : Synced code t e d) (h : e.Ready) (contexts : Contexts) (decisions : List (Nat × Bool))
    (hc : (e.encodeAll contexts decisions).2.Completes code) :
    ∃ d', d.decodeAll contexts (decisions.map Prod.fst) =
        (decisions.map Prod.snd, (e.encodeAll contexts decisions).1, d') ∧
      Synced code t (e.encodeAll contexts decisions).2 d' := by
  induction decisions generalizing e d contexts with
  | nil => exact ⟨d, rfl, hs⟩
  | cons decision decisions ih =>
    obtain ⟨i, bit⟩ := decision
    have hready := (Encoder.Reaches.encodeAt e contexts i bit).ready h
    have hfirst := (Encoder.reaches_encodeAll _ _ decisions).completes hready hc
    obtain ⟨d', hd, hs'⟩ := hs.decodeAt h contexts i bit hfirst
    obtain ⟨d'', hd', hs''⟩ := ih hs' hready _ hc
    exact ⟨d'', by simp [Decoder.decodeAll, hd, hd', Encoder.encodeAll], hs''⟩

/-- Decisions in `n` contexts survive encoding and decoding, whatever bytes `t` follow the stream:
after some of them, the decoder has given them back, has learnt what the encoder had learnt after
them, and hasn't run out of data. -/
theorem decodeAll_finish (n : Nat) (decisions more : List (Nat × Bool)) (t : List UInt8) :
    let fresh : Contexts := Array.replicate n {}
    let stream := (Encoder.start.encodeAll fresh (decisions ++ more)).2.finish ++ t.toArray
    let run := (Decoder.ofBytes stream).decodeAll fresh (decisions.map Prod.fst)
    run.1 = decisions.map Prod.snd ∧
      run.2.1 = (Encoder.start.encodeAll fresh decisions).1 ∧ run.2.2.checkData = .ok () := by
  intro fresh stream run
  let e := (Encoder.start.encodeAll fresh decisions).2
  let f := (Encoder.start.encodeAll fresh (decisions ++ more)).2
  have hreach : Encoder.start.Reaches e := Encoder.reaches_encodeAll _ _ _
  have hreach' : Encoder.start.Reaches f := Encoder.reaches_encodeAll _ _ _
  have hmore : e.Reaches f := by
    have := Encoder.reaches_encodeAll e (Encoder.start.encodeAll fresh decisions).1 more
    rwa [← Encoder.encodeAll_append] at this
  have hc : e.Completes f.flushed.code := hmore.completes (hreach.ready Encoder.start_ready)
    (Encoder.completes_flushed (hreach'.ready Encoder.start_ready))
  have hs : Synced f.flushed.code t Encoder.start (Decoder.ofBytes stream) :=
    synced_ofBytes hreach' (by simp [stream, f])
  obtain ⟨d, hd, hs'⟩ := hs.decodeAll Encoder.start_ready fresh decisions hc
  have hrun : run = (decisions.map Prod.snd, (Encoder.start.encodeAll fresh decisions).1, d) := hd
  rw [hrun]
  exact ⟨rfl, rfl, hs'.checkData hc⟩

end Bilevel.Mq

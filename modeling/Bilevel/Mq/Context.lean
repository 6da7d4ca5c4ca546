/-!
# Contexts of the MQ coder

The MQ coder learns, for every context in which a decision is coded, how likely its more probable
outcome is. What it has learnt is a row of a fixed table of 47 probability estimates, together with
the more probable outcome itself.
-/

namespace Bilevel.Mq

/-- A row of the table of probability estimates. -/
structure Estimate where
  /-- The share of the coding interval that goes to the less probable outcome. -/
  qe : Nat
  /-- The next row after the more probable outcome. -/
  nextMps : Fin 47
  /-- The next row after the less probable outcome. -/
  nextLps : Fin 47
  /-- Whether the two outcomes change places after the less probable one. -/
  switch : Bool
  deriving DecidableEq, Repr

/-- The table of probability estimates. -/
def estimates : Vector Estimate 47 := #v[
  ⟨0x5601, 1, 1, true⟩, ⟨0x3401, 2, 6, false⟩, ⟨0x1801, 3, 9, false⟩,
  ⟨0x0AC1, 4, 12, false⟩, ⟨0x0521, 5, 29, false⟩, ⟨0x0221, 38, 33, false⟩,
  ⟨0x5601, 7, 6, true⟩, ⟨0x5401, 8, 14, false⟩, ⟨0x4801, 9, 14, false⟩,
  ⟨0x3801, 10, 14, false⟩, ⟨0x3001, 11, 17, false⟩, ⟨0x2401, 12, 18, false⟩,
  ⟨0x1C01, 13, 20, false⟩, ⟨0x1601, 29, 21, false⟩, ⟨0x5601, 15, 14, true⟩,
  ⟨0x5401, 16, 14, false⟩, ⟨0x5101, 17, 15, false⟩, ⟨0x4801, 18, 16, false⟩,
  ⟨0x3801, 19, 17, false⟩, ⟨0x3401, 20, 18, false⟩, ⟨0x3001, 21, 19, false⟩,
  ⟨0x2801, 22, 19, false⟩, ⟨0x2401, 23, 20, false⟩, ⟨0x2201, 24, 21, false⟩,
  ⟨0x1C01, 25, 22, false⟩, ⟨0x1801, 26, 23, false⟩, ⟨0x1601, 27, 24, false⟩,
  ⟨0x1401, 28, 25, false⟩, ⟨0x1201, 29, 26, false⟩, ⟨0x1101, 30, 27, false⟩,
  ⟨0x0AC1, 31, 28, false⟩, ⟨0x09C1, 32, 29, false⟩, ⟨0x08A1, 33, 30, false⟩,
  ⟨0x0521, 34, 31, false⟩, ⟨0x0441, 35, 32, false⟩, ⟨0x02A1, 36, 33, false⟩,
  ⟨0x0221, 37, 34, false⟩, ⟨0x0141, 38, 35, false⟩, ⟨0x0111, 39, 36, false⟩,
  ⟨0x0085, 40, 37, false⟩, ⟨0x0049, 41, 38, false⟩, ⟨0x0025, 42, 39, false⟩,
  ⟨0x0015, 43, 40, false⟩, ⟨0x0009, 44, 41, false⟩, ⟨0x0005, 45, 42, false⟩,
  ⟨0x0001, 45, 43, false⟩, ⟨0x5601, 46, 46, false⟩]

/-- What has been learnt in one context. -/
structure Context where
  /-- The row of the table of estimates. -/
  index : Fin 47 := 0
  /-- The more probable outcome. -/
  mps : Bool := false
  deriving DecidableEq, Repr, Inhabited

namespace Context

def estimate (cx : Context) : Estimate := estimates[cx.index]

/-- The context after its more probable outcome made the interval too small. -/
def afterMps (cx : Context) : Context := { cx with index := cx.estimate.nextMps }

/-- The context after its less probable outcome. -/
def afterLps (cx : Context) : Context :=
  ⟨cx.estimate.nextLps, if cx.estimate.switch then !cx.mps else cx.mps⟩

end Context

/-- Every estimate is a part of the smallest interval. -/
theorem Context.qe_pos (cx : Context) : 0 < cx.estimate.qe := by
  have h : ∀ i : Fin 47, 0 < estimates[i].qe := by decide
  exact h cx.index

theorem Context.qe_le (cx : Context) : cx.estimate.qe ≤ 0x5601 := by
  have h : ∀ i : Fin 47, estimates[i].qe ≤ 0x5601 := by decide
  exact h cx.index

/-- The contexts of one coding procedure, by number. -/
abbrev Contexts := Array Context

namespace Contexts

/-- A fresh context for every number of `bits` bits. -/
def fresh (bits : Nat) : Contexts := Array.replicate (1 <<< bits) {}

def lookup (contexts : Contexts) (i : Nat) : Context := contexts.getD i {}

def update (contexts : Contexts) (i : Nat) (cx : Context) : Contexts := contexts.setIfInBounds i cx

end Contexts
end Bilevel.Mq

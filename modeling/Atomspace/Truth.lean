import Atomspace.Scalar
/-!
# Truths

A truth is a strength between zero and one, backed by an amount of evidence. Evidence accumulates:
merging two truths adds the counts and weighs the strengths by them.
-/

namespace Atomspace

/-- A strength and the amount of evidence behind it. -/
structure Truth (ν : Type) where
  /-- How true it is, from zero to one. -/
  strength : ν
  /-- The amount of evidence, from zero up. -/
  count : ν

namespace Truth

variable {ν : Type} [Scalar ν]

/-- The truth with a strength and a count, each brought into its range. An undefined strength is
one half, an undefined count zero. -/
def ofEvidence (strength count : ν) : Truth ν where
  strength := if Scalar.isNaN strength then 0.5 else Scalar.clampUnit strength
  count := if Scalar.isNaN count then 0.0 else Scalar.max count 0.0

/-- No evidence either way. -/
def unknown : Truth ν := ⟨0.5, 0.0⟩

/-- Fully true, by a number of observations. -/
def observed (count : ν) : Truth ν :=
  ofEvidence 1.0 count

/-- The weight of the evidence, from zero towards one; one observation gives one half. -/
def confidence (t : Truth ν) : ν :=
  t.count / (t.count + 1.0)

/-- What a match is ranked by. -/
def score (t : Truth ν) : ν :=
  t.confidence * t.strength

/-- The truth of both pieces of evidence together. -/
def merge (t u : Truth ν) : Truth ν :=
  let total := t.count + u.count
  if Scalar.le total 0.0 then ofEvidence ((t.strength + u.strength) / 2.0) 0.0
  else ofEvidence ((t.strength * t.count + u.strength * u.count) / total) total

end Truth

end Atomspace

import Atomspace.Config
/-!
# Priorities

How much attention an atom gets, on two time scales. A boost raises the short-term priority and
feeds the long-term one; a maintenance cycle takes from both and moves part of the short-term loss
into the long-term priority.
-/

namespace Atomspace

/-- A short-term and a long-term priority, each from zero to one. -/
structure Priority (ν : Type) where
  shortTerm : ν
  longTerm : ν

namespace Priority

variable {ν : Type} [Scalar ν]

/-- The priority with both levels brought into the unit interval. -/
def ofLevels (shortTerm longTerm : ν) : Priority ν where
  shortTerm := Scalar.clampUnit shortTerm
  longTerm := Scalar.clampUnit longTerm

/-- One maintenance cycle. -/
def decay (p : Priority ν) (c : SpaceConfig ν) : Priority ν :=
  let lost := p.shortTerm * Scalar.clampUnit c.shortTermDecay
  let left := p.shortTerm - lost
  { shortTerm := if Scalar.lt left Scalar.epsilon then 0.0 else left
    longTerm := Scalar.clampUnit
      ((p.longTerm + lost * c.transfer) * (1.0 - Scalar.clampUnit c.longTermDecay)) }

/-- Raises the short-term priority by an amount. The long-term priority gains by what the
short-term priority actually gained, times the rate. -/
def boost (p : Priority ν) (amount rate : ν) : Priority ν :=
  let shortTerm := Scalar.clampUnit (p.shortTerm + amount)
  let gain := shortTerm - p.shortTerm
  { shortTerm
    longTerm := if Scalar.lt 0.0 gain then Scalar.clampUnit (p.longTerm + gain * rate) else p.longTerm }

/-- Both levels together, at most one. -/
def raw (p : Priority ν) : ν :=
  Scalar.min (p.shortTerm + p.longTerm) 1.0

end Priority

end Atomspace

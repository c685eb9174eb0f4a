import Atomspace.Scalar
/-!
# Exact numbers

Rational numbers as scalars. No operation rounds; only the exponential function, whose values are
not rational, has to be given.
-/

namespace Atomspace

/-- An exact number, with a stand-in for the exponential function. -/
structure Exact (exp : Rat → Rat) where
  value : Rat
deriving DecidableEq

namespace Exact

variable {exp : Rat → Rat}

/-- The value of a decimal. -/
def ofDecimal (d : Decimal) : Rat :=
  (if d.negative then -1 else 1) * d.digits * 10 ^ d.exponent

instance : Scalar (Exact exp) where
  add x y := ⟨x.value + y.value⟩
  sub x y := ⟨x.value - y.value⟩
  mul x y := ⟨x.value * y.value⟩
  div x y := ⟨x.value / y.value⟩
  neg x := ⟨-x.value⟩
  ofInt n := ⟨n⟩
  ofDecimal d := ⟨ofDecimal d⟩
  lt x y := decide (x.value < y.value)
  eq x y := decide (x.value = y.value)
  rankLE x y := decide (x.value ≤ y.value)
  isFinite _ := true
  exp x := ⟨exp x.value⟩
  epsilon := ⟨mkRat 1 (1 <<< 52)⟩
  toSize x := min x.value.floor.toNat (UInt64.size - 1)
  key x := toString x.value
  text x := toString x.value

end Exact

end Atomspace

import Atomspace.Decimal
/-!
# Scalars

The numbers that truths, priorities, utilities and numeric atoms are made of. Everything that
computes with them is written over the class `Scalar`, so the same definitions run on doubles and
can be read over the rationals.
-/

namespace Atomspace

/-- Numbers with the operations that weights and numeric atoms need. -/
class Scalar (ν : Type) extends Add ν, Sub ν, Mul ν, Div ν, Neg ν where
  /-- The number nearest to an integer. -/
  ofInt : Int → ν
  /-- The number nearest to a decimal. -/
  ofDecimal : Decimal → ν
  /-- Strictly less; false when either side is not a number. -/
  lt : ν → ν → Bool
  /-- Equal in value; false when either side is not a number. -/
  eq : ν → ν → Bool
  /-- The total order by which things are ranked. -/
  rankLE : ν → ν → Bool
  /-- Neither infinite nor undefined. -/
  isFinite : ν → Bool
  exp : ν → ν
  /-- The gap between one and the next number; what is smaller counts as nothing. -/
  epsilon : ν
  /-- The whole part, cut off at zero and at the largest size. -/
  toSize : ν → Nat
  /-- The text that identifies the number. -/
  key : ν → String
  /-- The numeral in the surface syntax. -/
  text : ν → String

namespace Scalar

variable {ν : Type} [Scalar ν]

instance (priority := low) instOfNatOfScalar (n : Nat) : OfNat ν n := ⟨ofInt n⟩

instance (priority := low) instOfScientificOfScalar : OfScientific ν where
  ofScientific m s e := ofDecimal { digits := m, exponent := if s then -(e : Int) else e }

/-- At most; false when either side is not a number. -/
def le (x y : ν) : Bool :=
  lt x y || eq x y

/-- Whether `x` is the outcome of an undefined operation, and so differs from itself. -/
def isNaN (x : ν) : Bool :=
  !eq x x

/-- The point of the range from `lo` to `hi` that is nearest to `x`; what is not a number stays. -/
def clamp (lo hi x : ν) : ν :=
  if lt x lo then lo else if lt hi x then hi else x

/-- The nearest point of the unit interval. -/
def clampUnit (x : ν) : ν :=
  clamp 0 1 x

/-- The greater of two numbers, or the one that is a number; of equals the second. -/
def max (x y : ν) : ν :=
  if isNaN y then x else if lt y x then x else y

/-- The lesser of two numbers, or the one that is a number; of equals the second. -/
def min (x y : ν) : ν :=
  if isNaN y then x else if lt x y then x else y

/-- The element whose measure ranks highest; of several the last one. -/
def greatest? {α : Type} (measure : α → ν) : List α → Option α
  | [] => none
  | a :: l => some (l.foldl (fun b c => if rankLE (measure b) (measure c) then c else b) a)

end Scalar

end Atomspace

import Atomspace.Decimal.Layout
import Atomspace.Decimal.Shortest
import Atomspace.Scalar
/-!
# Doubles

The numbers the program runs on: binary64 values that remember the sign of "not a number". Ranking
follows the total order of the values, in which an undefined result of arithmetic stands below
everything and a positive "not a number" above everything, so that sign is kept.
-/

namespace Atomspace

/-- A binary64 value. -/
structure Double where
  value : Float
  /-- The sign of "not a number"; false for every number. -/
  negativeNaN : Bool := false

namespace Double

/-- The positive "not a number". -/
def nan : Double := ⟨0 / 0, false⟩

/-- Positive infinity. -/
def infinity : Double := ⟨1 / 0, false⟩

/-- Changes the sign, also that of "not a number". -/
def neg (x : Double) : Double :=
  if x.value.isNaN then { x with negativeNaN := !x.negativeNaN } else ⟨-x.value, false⟩

/-- The result `r` of an operation on `x` and `y`. What is not a number is handed on, from the left
operand first; an operation on numbers that is undefined gives the negative "not a number". -/
def ofOperation (x y : Double) (r : Float) : Double :=
  if !r.isNaN then ⟨r, false⟩
  else if x.value.isNaN then x
  else if y.value.isNaN then y
  else ⟨r, true⟩

/-- The nearest double to a decimal. Decimals beyond the range of exponents are told apart by the
number of their digits, so no large power is computed for them. -/
def ofDecimal (d : Decimal) : Double :=
  let magnitude := (toString d.digits).length + d.exponent
  let x : Float :=
    if d.digits = 0 then 0
    else if 400 < magnitude then 1 / 0
    else if magnitude < -400 then 0
    else Float.ofScientific d.digits (decide (d.exponent < 0)) d.exponent.natAbs
  ⟨if d.negative then -x else x, false⟩

/-- Whether the sign bit is set. -/
def isNegative (x : Double) : Bool :=
  if x.value.isNaN then x.negativeNaN else x.value.toBits >>> 63 == 1

/-- The position of a value in the total order: negative values count down from minus one. -/
def rank (x : Double) : Int :=
  let magnitude := (x.value.toBits &&& 0x7FFFFFFFFFFFFFFF).toNat
  if x.isNegative then -1 - (magnitude : Int) else magnitude

/-! ## Texts -/

/-- Writes a value: `number` gives the text of a finite value without its sign. -/
def write (number : Decimal.Binary → String) (x : Double) : String :=
  if x.value.isNaN then "NaN"
  else
    let sign := if x.isNegative then "-" else ""
    if x.value.isFinite then sign ++ number (.ofBits x.value.toBits) else sign ++ "inf"

/-- The identifying text is positional from `1e-4` up to `1e16`. -/
def keyLayout : Decimal.Layout where
  plainFrom := -4
  plainBelow := 16

/-- In documents for other programs numbers are positional from `1e-5` up to `1e16`. -/
def exchangeLayout : Decimal.Layout where
  plainFrom := -5
  plainBelow := 16

/-- The shortest decimal that reads back, in a layout. -/
def writeShortest (l : Decimal.Layout) : Double → String :=
  write fun b => l.write b.shortest.1 b.shortest.2

/-- The numeral of the surface syntax: whole numbers with all their digits, others by the shortest
decimal that reads back, never with an exponent. -/
def text : Double → String :=
  write fun b =>
    match b.toNat? with
    | some n => toString n ++ ".0"
    | none => Decimal.positional b.shortest.1 b.shortest.2

/-- The value with a fixed number of places. -/
def fixed (places : Nat) : Double → String :=
  write fun b => Decimal.fixed places (b.roundAt places)

instance : Scalar Double where
  add x y := ofOperation x y (x.value + y.value)
  sub x y := ofOperation x y (x.value - y.value)
  mul x y := ofOperation x y (x.value * y.value)
  div x y := ofOperation x y (x.value / y.value)
  neg := neg
  ofInt n := ⟨Float.ofInt n, false⟩
  ofDecimal := ofDecimal
  lt x y := decide (x.value < y.value)
  eq x y := x.value == y.value
  rankLE x y := decide (x.rank ≤ y.rank)
  isFinite x := x.value.isFinite
  exp x := ofOperation x x x.value.exp
  epsilon := ⟨Float.ofBits 0x3CB0000000000000, false⟩
  toSize x := x.value.toUInt64.toNat
  key := writeShortest keyLayout
  text := text

instance : Inhabited Double := ⟨0⟩

end Double

end Atomspace

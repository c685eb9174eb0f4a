import Atomspace.Decimal
/-!
# Shortest decimals

A binary floating-point value stands for all the reals that round to it. `Binary.shortest` gives
the decimal with the fewest digits among these, and of several such decimals the one nearest to
the value. All arithmetic is exact.
-/

namespace Atomspace.Decimal

/-- A finite binary64 value without its sign, `significand * 2 ^ exponent`. -/
structure Binary where
  significand : Nat
  exponent : Int
  /-- Whether the gap to the value below is half the gap to the value above. -/
  narrowBelow : Bool

namespace Binary

/-- Decodes the bits of a finite value; the sign bit is ignored. -/
def ofBits (b : UInt64) : Binary :=
  let e := ((b >>> 52) &&& 0x7FF).toNat
  let f := (b &&& 0xFFFFFFFFFFFFF).toNat
  if e = 0 then ⟨f, -1074, false⟩ else ⟨1 <<< 52 + f, (e : Int) - 1075, f == 0 && decide (1 < e)⟩

/-- Compares `a * 10 ^ i` with `n * 2 ^ j`. -/
def compareScaled (a : Nat) (i : Int) (n : Nat) (j : Int) : Ordering :=
  compare ((a * Nat.pow 10 i.toNat) <<< (-j).toNat) ((n * Nat.pow 10 (-i).toNat) <<< j.toNat)

/-- Whether the decimal `digits * 10 ^ scale` rounds to `x`: it lies between the midpoints to the
neighbouring values, the midpoints included exactly when the significand is even. -/
def readsBack (x : Binary) (digits : Nat) (scale : Int) : Bool :=
  let low := if x.narrowBelow then 4 * x.significand - 1 else 4 * x.significand - 2
  let high := 4 * x.significand + 2
  let closed := x.significand % 2 == 0
  let fromLow := compareScaled digits scale low (x.exponent - 2)
  let fromHigh := compareScaled digits scale high (x.exponent - 2)
  (fromLow == .gt || (closed && fromLow == .eq)) && (fromHigh == .lt || (closed && fromHigh == .eq))

/-- The least power of ten above `x`, for `x` other than zero. The binary logarithm gives a guess
that is at most two too low. -/
def magnitude (x : Binary) : Int :=
  let guess := Int.fdiv ((Nat.log2 x.significand + x.exponent) * 30103) 100000 - 1
  let above (k : Int) := compareScaled 1 k x.significand x.exponent == .gt
  ([0, 1, 2, 3].map fun i : Nat => guess + i).find? above |>.getD (guess + 4)

/-- The greatest multiple of `10 ^ scale` that is at most `x`, as a number of steps. -/
def floorAt (x : Binary) (scale : Int) : Nat :=
  (x.significand <<< x.exponent.toNat * Nat.pow 10 (-scale).toNat)
    / (Nat.pow 10 scale.toNat <<< (-x.exponent).toNat)

/-- The multiple of `10 ^ scale` that rounds to `x`, if there is one; of two neighbours the nearer
one, and the upper one when `x` is halfway between them. -/
def nearestAt? (x : Binary) (scale : Int) : Option Nat :=
  let d := x.floorAt scale
  match x.readsBack d scale, x.readsBack (d + 1) scale with
  | false, false => none
  | true, false => some d
  | false, true => some (d + 1)
  | true, true =>
    if compareScaled (2 * d + 1) scale (2 * x.significand) x.exponent == .gt then some d
    else some (d + 1)

/-- The exact value, as a decimal. -/
def exact (x : Binary) : Nat × Int :=
  (x.significand <<< x.exponent.toNat * Nat.pow 5 (-x.exponent).toNat, -((-x.exponent).toNat : Int))

/-- Moves up to `n` trailing zeros of the digits into the exponent. -/
def stripZeros : Nat → Nat × Int → Nat × Int
  | 0, d => d
  | n + 1, (digits, scale) =>
    if digits ≠ 0 ∧ digits % 10 = 0 then stripZeros n (digits / 10, scale + 1) else (digits, scale)

/-- The shortest decimal that rounds to `x`, as digits and a power of ten. Grids are tried from
one digit to seventeen; the exact value stands behind them. -/
def shortest (x : Binary) : Nat × Int :=
  if x.significand = 0 then (0, 0)
  else
    let k := x.magnitude
    let grids := (List.range 17).map fun i : Nat => k - 1 - i
    let found := grids.findSome? fun scale => (x.nearestAt? scale).map fun d => (d, scale)
    stripZeros 1100 (found.getD x.exact)

/-- The value as a whole number, if it is one. -/
def toNat? (x : Binary) : Option Nat :=
  let denominator := 1 <<< (-x.exponent).toNat
  let numerator := x.significand <<< x.exponent.toNat
  if numerator % denominator = 0 then some (numerator / denominator) else none

/-- The value rounded to a multiple of `10 ^ -places`, as a number of steps; a half goes to the
even neighbour. -/
def roundAt (x : Binary) (places : Nat) : Nat :=
  let numerator := x.significand <<< x.exponent.toNat * Nat.pow 10 places
  let denominator := 1 <<< (-x.exponent).toNat
  let quotient := numerator / denominator
  match compare (2 * (numerator % denominator)) denominator with
  | .lt => quotient
  | .gt => quotient + 1
  | .eq => if quotient % 2 = 0 then quotient else quotient + 1

end Binary

end Atomspace.Decimal

/-!
# Decimals

A decimal is a sign, a whole number of digits and a power of ten: the exact value that a numeral
denotes before it is rounded to a machine number. `Decimal.ofChars?` reads a numeral.
-/

namespace Atomspace

/-- The number `± digits * 10 ^ exponent`. -/
structure Decimal where
  /-- Whether the sign is minus; a negative zero is kept apart from zero. -/
  negative : Bool := false
  /-- The digits, read as one whole number. -/
  digits : Nat
  exponent : Int := 0
deriving DecidableEq, Repr

namespace Decimal

/-- The value of a decimal digit. -/
def digitVal (c : Char) : Nat :=
  c.toNat - '0'.toNat

/-- The number written by a row of digits. -/
def ofDigits (ds : List Char) : Nat :=
  ds.foldl (fun n c => 10 * n + digitVal c) 0

/-- Splits off a leading sign: whether it is minus, and the rest. -/
def splitSign : List Char → Bool × List Char
  | '-' :: cs => (true, cs)
  | '+' :: cs => (false, cs)
  | cs => (false, cs)

/-- The exponent part of a numeral, `e` with an optional sign and at least one digit, or nothing. -/
def exponentOfChars? : List Char → Option Int
  | [] => some 0
  | c :: cs =>
    if c = 'e' ∨ c = 'E' then
      let (negative, ds) := splitSign cs
      if ds.isEmpty || !ds.all Char.isDigit then none
      else if negative then some (-(ofDigits ds : Int)) else some (ofDigits ds)
    else none

/-- Reads a numeral: an optional sign, digits with at most one point among or around them, and an
optional exponent. There is at least one digit before the exponent. -/
def ofChars? (cs : List Char) : Option Decimal :=
  let (negative, body) := splitSign cs
  let whole := body.takeWhile Char.isDigit
  let rest := body.dropWhile Char.isDigit
  let (fraction, rest) := match rest with
    | '.' :: cs => (cs.takeWhile Char.isDigit, cs.dropWhile Char.isDigit)
    | cs => ([], cs)
  if whole.isEmpty && fraction.isEmpty then none
  else
    (exponentOfChars? rest).map fun e =>
      { negative, digits := ofDigits (whole ++ fraction), exponent := e - fraction.length }

/-- The numeral of a natural number, padded with zeros on the left to at least `width` digits. -/
def padded (width n : Nat) : String :=
  let ds := toString n
  String.ofList (List.replicate (width - ds.length) '0') ++ ds

end Decimal

end Atomspace

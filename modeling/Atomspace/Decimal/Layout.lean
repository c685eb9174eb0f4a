import Atomspace.Decimal
/-!
# Laying out decimals

The written form of a decimal without its sign: positional with a point, or in scientific notation.
A `Layout` says for which magnitudes the positional form is used.
-/

namespace Atomspace.Decimal

/-- The number that `digits * 10 ^ scale` denotes, written with a point and at least one digit on
either side of it. -/
def positional (digits : Nat) (scale : Int) : String :=
  let ds := (toString digits).toList
  let zeros (n : Nat) := List.replicate n '0'
  if 0 ≤ scale then String.ofList (ds ++ zeros scale.toNat ++ ['.', '0'])
  else
    let places := (-scale).toNat
    if places < ds.length then
      String.ofList (ds.take (ds.length - places) ++ '.' :: ds.drop (ds.length - places))
    else String.ofList ('0' :: '.' :: zeros (places - ds.length) ++ ds)

/-- The number that `digits * 10 ^ scale` denotes, written as one digit, a fraction if there are
further digits, and the exponent of the first digit. -/
def scientific (digits : Nat) (scale : Int) : String :=
  let ds := (toString digits).toList
  let exponent := toString (scale + (ds.length - 1 : Nat))
  match ds with
  | d :: e :: rest => String.ofList (d :: '.' :: e :: rest) ++ "e" ++ exponent
  | _ => String.ofList ds ++ "e" ++ exponent

/-- A whole number of steps of `10 ^ -places`, written with exactly that many places. -/
def fixed (places steps : Nat) : String :=
  let ds := (padded (places + 1) steps).toList
  let whole := String.ofList (ds.take (ds.length - places))
  if places = 0 then whole else whole ++ "." ++ String.ofList (ds.drop (ds.length - places))

/-- The magnitudes that are written positionally: those whose first digit stands for
`10 ^ e` with `plainFrom ≤ e < plainBelow`. -/
structure Layout where
  /-- The least exponent of a first digit that is written positionally. -/
  plainFrom : Int
  /-- The least exponent above these. -/
  plainBelow : Int

/-- Writes `digits * 10 ^ scale` in the form that the layout asks for; zero is positional. -/
def Layout.write (l : Layout) (digits : Nat) (scale : Int) : String :=
  let first := scale + ((toString digits).length - 1 : Nat)
  if digits = 0 ∨ (l.plainFrom ≤ first ∧ first < l.plainBelow) then positional digits scale
  else scientific digits scale

end Atomspace.Decimal

import Atomspace.Atom
/-!
# Results

What an evaluation has found so far: atoms of different keys, up to a limit.
-/

namespace Atomspace

/-- Distinct results in the order in which they were found. -/
structure Results (ν : Type) where
  /-- The greatest number of results. -/
  limit : Nat
  atoms : List (Atom ν) := []

namespace Results

variable {ν : Type}

/-- Whether no further result is taken. -/
def isFull (r : Results ν) : Bool :=
  decide (r.limit ≤ r.atoms.length)

/-- Takes a result, unless there are enough or one of the same key is there. -/
def push [Scalar ν] (r : Results ν) (a : Atom ν) : Results ν :=
  if r.isFull || r.atoms.any (fun b => b.key == a.key) then r
  else { r with atoms := r.atoms ++ [a] }

/-- Takes several results. -/
def extend [Scalar ν] (r : Results ν) (l : List (Atom ν)) : Results ν :=
  l.foldl push r

end Results

end Atomspace

import Atomspace.Scalar
/-!
# Random sources

A source gives one word of 64 bits after the other. Random numbers and choices are drawn from it.
-/

namespace Atomspace

/-- A source of random words. -/
class RandomSource (ρ : Type) where
  /-- The next word, and the source after it. -/
  next : ρ → UInt64 × ρ

namespace RandomSource

variable {ρ : Type} [RandomSource ρ]

/-- A number from zero up to but not including one, on the upper 53 bits of a word. -/
def uniform {ν : Type} [Scalar ν] (source : ρ) : ν × ρ :=
  let (word, source) := next source
  (Scalar.ofInt (word >>> 11).toNat / Scalar.ofInt (1 <<< 53), source)

/-- The words that are taken for a choice below `n` reach up to here: the largest multiple of `n`
by a power of two that 64 bits hold, less one. -/
def zone (n : Nat) : Nat :=
  n <<< (63 - Nat.log2 n) - 1

/-- A number below `n`, in at most so many draws. A word times `n` is split into an upper word,
which is the number, and a lower word, which has to lie in the zone to make all numbers equally
likely. A source without such a word gives zero. -/
def belowWithin (n : Nat) : Nat → ρ → Nat × ρ
  | 0, source => (0, source)
  | draws + 1, source =>
    let (word, source) := next source
    let product := word.toNat * n
    if product % UInt64.size ≤ zone n then (product / UInt64.size, source)
    else belowWithin n draws source

/-- A number below `n`, all equally likely. -/
def below (n : Nat) (source : ρ) : Nat × ρ :=
  belowWithin n 1048576 source

end RandomSource

end Atomspace

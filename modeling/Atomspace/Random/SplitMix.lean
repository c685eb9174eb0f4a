import Atomspace.Random
/-!
# Splittable mixing

A source that counts in steps of an odd constant and mixes the bits of the count, and the same
source behind a list of prepared words.
-/

namespace Atomspace

/-- The source by its count. -/
structure SplitMix where
  /-- The count. -/
  state : UInt64 := 0

/-- Moves the count on and mixes its bits. -/
def SplitMix.next (g : SplitMix) : UInt64 × SplitMix :=
  let state := g.state + 0x9E3779B97F4A7C15
  let z := (state ^^^ (state >>> 30)) * 0xBF58476D1CE4E5B9
  let z := (z ^^^ (z >>> 27)) * 0x94D049BB133111EB
  (z ^^^ (z >>> 31), { state })

instance : RandomSource SplitMix := ⟨SplitMix.next⟩

/-- Prepared words, and a source for when they are used up. -/
structure Prepared (ρ : Type) where
  /-- The words, next one first. -/
  words : List UInt64
  /-- The source behind them. -/
  source : ρ

instance {ρ : Type} [RandomSource ρ] : RandomSource (Prepared ρ) where
  next p :=
    match p.words with
    | word :: words => (word, { p with words })
    | [] =>
      let (word, source) := RandomSource.next p.source
      (word, { p with source })

end Atomspace

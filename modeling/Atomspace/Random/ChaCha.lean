import Atomspace.Random
import Atomspace.Word
/-!
# ChaCha

A source that reads the key stream of the ChaCha cipher with twelve rounds, under a key expanded
from a seed of 64 bits.
-/

namespace Atomspace

/-- The source by its key and the number of words read so far. -/
structure ChaCha where
  key : Vector UInt32 8
  /-- The number of words of 64 bits read so far. -/
  position : Nat := 0

namespace ChaCha

open Word

/-- Moves the bits of a word to the left; what falls off comes in on the right. -/
def rotateLeft (w distance : UInt32) : UInt32 :=
  rotateRight w (32 - distance)

/-- Two rounds: down the columns, then along the diagonals. There is no message. -/
def doubleRound (s : Block) : Block :=
  round rotateLeft s (Vector.replicate 16 0)

/-- The block of the key stream with the given number: the start with six double rounds of it
added. -/
def blockAt (key : Vector UInt32 8) (number : Nat) : Block :=
  let constants : Vector UInt32 4 := #v[0x61707865, 0x3320646E, 0x79622D32, 0x6B206574]
  let start : Block := constants ++ key ++ #v[UInt32.ofNat number, upper number, 0, 0]
  start.zipWith (· + ·) (Nat.repeat doubleRound 6 start)

/-- The next word: two words of the key stream, lower one first. A block has eight pairs. -/
def next (g : ChaCha) : UInt64 × ChaCha :=
  let words := (blockAt g.key (g.position / 8)).toList.drop (2 * (g.position % 8))
  let word := match words with
    | low :: high :: _ => low.toUInt64 ||| (high.toUInt64 <<< 32)
    | _ => 0
  (word, { g with position := g.position + 1 })

instance : RandomSource ChaCha := ⟨next⟩

/-- The words that a seed expands to: a linear congruence, with the upper bits of its state
permuted by a rotation. -/
def expand : Nat → UInt64 → List UInt32
  | 0, _ => []
  | n + 1, seed =>
    let state := seed * 6364136223846793005 + 11634580027462260723
    let mixed := (((state >>> 18) ^^^ state) >>> 27).toUInt32
    let turn := (state >>> 59).toUInt32
    (if turn = 0 then mixed else rotateRight mixed turn) :: expand n state

/-- The source of a seed. -/
def ofSeed (seed : UInt64) : ChaCha where
  key := Vector.ofFn fun i => (expand 8 seed).getD i 0

end ChaCha

end Atomspace

/-!
# Words

Words of 32 bits: rotation, blocks of sixteen words read from bytes, and the mixing of blocks.
-/

namespace Atomspace.Word

/-- Moves the bits of a word to the right; what falls off comes in on the left. The distance is
between 1 and 31. -/
def rotateRight (w : UInt32) (distance : UInt32) : UInt32 :=
  (w >>> distance) ||| (w <<< (32 - distance))

/-- A block of sixteen words. -/
abbrev Block := Vector UInt32 16

/-- The word of four bytes, least significant byte first. Missing bytes are zero. -/
def ofBytes (bytes : List UInt8) : UInt32 :=
  (bytes.take 4).foldr (fun b w => w * 256 + b.toUInt32) 0

/-- The bytes of a word, least significant byte first. -/
def toBytes (w : UInt32) : List UInt8 :=
  [w.toUInt8, (w >>> 8).toUInt8, (w >>> 16).toUInt8, (w >>> 24).toUInt8]

/-- The block of 64 bytes. Missing bytes are zero. -/
def block (bytes : List UInt8) : Block :=
  Vector.ofFn fun i => ofBytes (bytes.drop (4 * i))

/-- One quarter of a round of mixing: stirs two summands into the four words at the given places of
a block. The word at `d` is rotated by 16 and by 8, the word at `b` by 12 and by 7. -/
def quarter (rotate : UInt32 → UInt32 → UInt32) (s : Block) (a b c d : Fin 16)
    (x y : UInt32) : Block :=
  let s := s.set a (s[a] + s[b] + x)
  let s := s.set d (rotate (s[d] ^^^ s[a]) 16)
  let s := s.set c (s[c] + s[d])
  let s := s.set b (rotate (s[b] ^^^ s[c]) 12)
  let s := s.set a (s[a] + s[b] + y)
  let s := s.set d (rotate (s[d] ^^^ s[a]) 8)
  let s := s.set c (s[c] + s[d])
  s.set b (rotate (s[b] ^^^ s[c]) 7)

/-- A round of mixing: stirs a message into the columns of a block of four rows, then into its
diagonals. -/
def round (rotate : UInt32 → UInt32 → UInt32) (s m : Block) : Block :=
  let mix := quarter rotate
  let s := mix s 0 4 8 12 m[0] m[1]
  let s := mix s 1 5 9 13 m[2] m[3]
  let s := mix s 2 6 10 14 m[4] m[5]
  let s := mix s 3 7 11 15 m[6] m[7]
  let s := mix s 0 5 10 15 m[8] m[9]
  let s := mix s 1 6 11 12 m[10] m[11]
  let s := mix s 2 7 8 13 m[12] m[13]
  mix s 3 4 9 14 m[14] m[15]

/-- The upper word of a number of 64 bits. -/
def upper (n : Nat) : UInt32 :=
  UInt32.ofNat (n >>> 32)

end Atomspace.Word

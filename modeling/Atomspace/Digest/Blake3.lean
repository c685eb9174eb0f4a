import Atomspace.Word
/-!
# BLAKE3

The BLAKE3 digest of bytes. The input is cut into chunks of 1024 bytes, a chunk into blocks of 64
bytes; the chunks are the leaves of a binary tree whose left subtrees are complete.
-/

namespace Atomspace.Digest.Blake3

open Word

/-- The chaining value before any input. -/
def initial : Vector UInt32 8 := #v[
  0x6A09E667, 0xBB67AE85, 0x3C6EF372, 0xA54FF53A, 0x510E527F, 0x9B05688C, 0x1F83D9AB, 0x5BE0CD19]

/-- The flag of the first block of a chunk. -/
def chunkStart : UInt32 := 1

/-- The flag of the last block of a chunk. -/
def chunkEnd : UInt32 := 2

/-- The flag of an inner node. -/
def parent : UInt32 := 4

/-- The flag of the root. -/
def root : UInt32 := 8

/-- The order in which a round takes the words that the round before took in their order. -/
def order : Array Nat := #[2, 6, 3, 10, 7, 0, 4, 13, 1, 11, 12, 5, 9, 14, 15, 8]

/-- A number of rounds. -/
def rounds : Nat → Block → Block → Block
  | 0, s, _ => s
  | n + 1, s, m =>
    rounds n (round rotateRight s m) (Vector.ofFn fun i => m.toArray.getD (order.getD i 0) 0)

/-- The input of one compression. -/
structure Node where
  chaining : Vector UInt32 8
  message : Block
  /-- The number of the chunk. -/
  counter : Nat
  /-- The number of bytes in the message. -/
  length : Nat
  flags : UInt32

/-- The chaining value that a node hands on. -/
def Node.compress (n : Node) : Vector UInt32 8 :=
  let start : Block := n.chaining ++ initial.take 4 ++ #v[
    UInt32.ofNat n.counter, upper n.counter, UInt32.ofNat n.length, n.flags]
  let s := rounds 7 start n.message
  Vector.ofFn fun i => s[i.val] ^^^ s[i.val + 8]

/-- The node of the last block of a chunk, given the flags of its first block. -/
def chunk (counter : Nat) (h : Vector UInt32 8) (flags : UInt32) (bytes : List UInt8) : Node :=
  let node : Node := { chaining := h, message := block bytes, counter, length := 64, flags }
  if bytes.length ≤ 64 then
    { node with length := bytes.length, flags := flags ||| chunkEnd }
  else chunk counter node.compress 0 (bytes.drop 64)
termination_by bytes.length
decreasing_by simp only [List.length_drop]; omega

/-- The number of bytes in the left subtree over more than one chunk: the largest power of two of
chunks that leaves something for the right subtree. -/
def leftSize (length : Nat) : Nat :=
  1024 <<< Nat.log2 ((length - 1) / 1024)

/-- The node at the top of the tree over some bytes, whose first chunk has the given number. The
fuel bounds the height of the tree. -/
def tree : Nat → Nat → List UInt8 → Node
  | 0, counter, bytes => chunk counter initial chunkStart bytes
  | fuel + 1, counter, bytes =>
    if bytes.length ≤ 1024 then chunk counter initial chunkStart bytes
    else
      let size := leftSize bytes.length
      let left := (tree fuel counter (bytes.take size)).compress
      let right := (tree fuel (counter + size / 1024) (bytes.drop size)).compress
      { chaining := initial, message := left ++ right, counter := 0, length := 64, flags := parent }

/-- The digest of 32 bytes. -/
def hash (bytes : List UInt8) : List UInt8 :=
  let top := tree (Nat.log2 bytes.length) 0 bytes
  { top with counter := 0, flags := top.flags ||| root }.compress.toList.flatMap toBytes

/-- A byte as two hexadecimal digits. -/
def hexByte (b : UInt8) : List Char :=
  [(b.toNat / 16).digitChar, (b.toNat % 16).digitChar]

/-- The digest of the bytes of a text, in hexadecimal digits. -/
def hex (text : String) : String :=
  String.ofList ((hash text.toUTF8.toList).flatMap hexByte)

end Atomspace.Digest.Blake3

/-!
# The BLAKE3 hash

The plain 32-byte BLAKE3 hash of a list of bytes. The input is cut into chunks of 1024 bytes, the
leaves of a binary tree whose left subtrees are complete and as large as possible; each chunk is a
chain of 64-byte blocks. Every step is one `compress`, and the last one is marked as the root.
-/

namespace ExprTree.Blake3

/-- Sixteen words: a message block or the state of a compression. -/
abbrev Block := Vector UInt32 16

/-- The eight words handed from one compression to the next. -/
abbrev ChainingValue := Vector UInt32 8

/-- The chaining value that every chunk starts from. -/
def initial : ChainingValue :=
  #v[0x6A09E667, 0xBB67AE85, 0x3C6EF372, 0xA54FF53A, 0x510E527F, 0x9B05688C, 0x1F83D9AB, 0x5BE0CD19]

/-- Marks the first block of a chunk. -/
def chunkStart : UInt32 := 1

/-- Marks the last block of a chunk. -/
def chunkEnd : UInt32 := 2

/-- Marks the joining of two subtrees. -/
def parentFlag : UInt32 := 4

/-- Marks the compression that gives the hash. -/
def rootFlag : UInt32 := 8

/-- The bytes of a block. -/
def blockBytes : Nat := 64

/-- The bytes of a full chunk. -/
def chunkBytes : Nat := 1024

/-! ## Compression -/

/-- Moves the bits of a word to the right; those that fall off come in on the left. -/
def rotateRight (w : UInt32) (n : UInt32) : UInt32 := (w >>> n) ||| (w <<< (32 - n))

/-- Mixes two message words into four words of the state. -/
def mix (s : Block) (a b c d : Fin 16) (x y : UInt32) : Block :=
  let wa := s[a] + s[b] + x
  let wd := rotateRight (s[d] ^^^ wa) 16
  let wc := s[c] + wd
  let wb := rotateRight (s[b] ^^^ wc) 12
  let wa := wa + wb + y
  let wd := rotateRight (wd ^^^ wa) 8
  let wc := wc + wd
  let wb := rotateRight (wb ^^^ wc) 7
  (((s.set a wa).set b wb).set c wc).set d wd

/-- The columns and diagonals that one round mixes, each with the places of its two message
words. -/
def roundPlaces : List (Fin 16 × Fin 16 × Fin 16 × Fin 16 × Fin 16 × Fin 16) :=
  [(0, 4, 8, 12, 0, 1), (1, 5, 9, 13, 2, 3), (2, 6, 10, 14, 4, 5), (3, 7, 11, 15, 6, 7),
    (0, 5, 10, 15, 8, 9), (1, 6, 11, 12, 10, 11), (2, 7, 8, 13, 12, 13), (3, 4, 9, 14, 14, 15)]

/-- Mixes the columns and then the diagonals of the state. -/
def round (s m : Block) : Block :=
  roundPlaces.foldl (fun s (a, b, c, d, i, j) => mix s a b c d m[i] m[j]) s

/-- Where each message word of the next round comes from. -/
def permutation : Vector (Fin 16) 16 :=
  #v[2, 6, 3, 10, 7, 0, 4, 13, 1, 11, 12, 5, 9, 14, 15, 8]

/-- The message words in the order of the next round. -/
def permute (m : Block) : Block := permutation.map fun i => m[i]

/-- The given number of rounds, the message being permuted between them. -/
def rounds : Nat → Block → Block → Block
  | 0, s, _ => s
  | n + 1, s, m => rounds n (round s m) (permute m)

/-- What goes into one compression. -/
structure Input where
  chaining : ChainingValue
  block : Block
  counter : Nat
  blockLen : Nat
  flags : UInt32

/-- The chaining value that a compression gives. -/
def compress (i : Input) : ChainingValue :=
  let start : Block := i.chaining ++ #v[initial[0], initial[1], initial[2], initial[3],
    UInt32.ofNat i.counter, UInt32.ofNat (i.counter >>> 32), UInt32.ofNat i.blockLen, i.flags]
  let s := rounds 7 start i.block
  Vector.ofFn fun k : Fin 8 => s[k.val] ^^^ s[k.val + 8]

/-! ## Words and bytes -/

/-- The word that four bytes spell, the least significant first. -/
def wordOfBytes (bytes : List UInt8) : UInt32 :=
  bytes.foldr (fun b w => w <<< 8 ||| b.toUInt32) 0

/-- The four bytes of a word, the least significant first. -/
def bytesOfWord (w : UInt32) : List UInt8 :=
  [w.toUInt8, (w >>> 8).toUInt8, (w >>> 16).toUInt8, (w >>> 24).toUInt8]

/-- The block of up to 64 bytes, filled up with zeros. -/
def blockOfBytes (bytes : List UInt8) : Block :=
  let padded := bytes ++ List.replicate (blockBytes - bytes.length) 0
  Vector.ofFn fun k : Fin 16 => wordOfBytes ((padded.drop (4 * k.val)).take 4)

/-! ## Chunks and the tree -/

/-- The last compression of a chunk, of which `bytes` is the rest. -/
def chunkTail (counter : Nat) (chaining : ChainingValue) (flags : UInt32) (bytes : List UInt8) :
    Input :=
  if bytes.length ≤ blockBytes then
    { chaining, block := blockOfBytes bytes, counter, blockLen := bytes.length,
      flags := flags ||| chunkEnd }
  else
    let next := compress { chaining, block := blockOfBytes (bytes.take blockBytes), counter,
                           blockLen := blockBytes, flags }
    chunkTail counter next 0 (bytes.drop blockBytes)
termination_by bytes.length
decreasing_by simp [blockBytes] at *; omega

/-- The last compression of a chunk. -/
def chunk (counter : Nat) (bytes : List UInt8) : Input := chunkTail counter initial chunkStart bytes

/-- The compression that joins two subtrees. -/
def parent (left right : ChainingValue) : Input :=
  { chaining := initial, block := left ++ right, counter := 0, blockLen := blockBytes,
    flags := parentFlag }

/-- The number of bytes in the left subtree of an input longer than a chunk: the largest power of
two of chunks that leaves something for the right. -/
def leftLength (n : Nat) : Nat := chunkBytes * Nat.pow 2 ((n - 1) / chunkBytes).log2

theorem leftLength_pos (n : Nat) : 0 < leftLength n := by
  have := Nat.two_pow_pos ((n - 1) / chunkBytes).log2
  simp only [leftLength, chunkBytes, Nat.pow_eq] at *
  omega

theorem leftLength_lt {n : Nat} (h : chunkBytes < n) : leftLength n < n := by
  have h₁ : (n - 1) / chunkBytes ≠ 0 := by
    simp only [chunkBytes] at *
    omega
  have h₂ := Nat.log2_self_le h₁
  have h₃ : chunkBytes * ((n - 1) / chunkBytes) ≤ n - 1 := Nat.mul_div_le _ _
  have h₄ := Nat.mul_le_mul_left chunkBytes h₂
  simp only [leftLength, Nat.pow_eq]
  omega

/-- The last compression of the tree over some bytes, whose first chunk has the given number. -/
def tree (counter : Nat) (bytes : List UInt8) : Input :=
  if bytes.length ≤ chunkBytes then chunk counter bytes
  else
    let left := leftLength bytes.length
    parent (compress (tree counter (bytes.take left)))
      (compress (tree (counter + left / chunkBytes) (bytes.drop left)))
termination_by bytes.length
decreasing_by
  · have := leftLength_lt (n := bytes.length) (by omega)
    simp; omega
  · have := leftLength_pos bytes.length
    have := leftLength_lt (n := bytes.length) (by omega)
    simp; omega

/-- The hash of a list of bytes, 32 bytes long. -/
def hash (bytes : List UInt8) : List UInt8 :=
  let last := tree 0 bytes
  (compress { last with flags := last.flags ||| rootFlag }).toList.flatMap bytesOfWord

end ExprTree.Blake3

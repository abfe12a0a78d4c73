/-! The Blake3 hash of a list of bytes, 32 bytes long, without key. The input is cut into chunks of 1024
    bytes, a chunk into blocks of 64 bytes; the blocks of a chunk are compressed one after another, and
    the chunks form a binary tree whose left subtrees are complete. -/

namespace StageLineage.Blake3

/-- Eight words: a chaining value. -/
abbrev Chaining := Vector UInt32 8

/-- Sixteen words: a message block or the state of a compression. -/
abbrev Block := Vector UInt32 16

/-! ### Constants -/

def initial : Chaining :=
  #v[0x6a09e667, 0xbb67ae85, 0x3c6ef372, 0xa54ff53a, 0x510e527f, 0x9b05688c, 0x1f83d9ab, 0x5be0cd19]

/-- The order of the message words in the next round. -/
def schedule : Vector (Fin 16) 16 := #v[2, 6, 3, 10, 7, 0, 4, 13, 1, 11, 12, 5, 9, 14, 15, 8]

/-- The flag of the first block of a chunk. -/
def chunkStart : UInt32 := 1

/-- The flag of the last block of a chunk. -/
def chunkEnd : UInt32 := 2

/-- The flag of an inner node of the tree. -/
def parentNode : UInt32 := 4

/-- The flag of the last compression. -/
def rootNode : UInt32 := 8

def blockSize : Nat := 64

def chunkSize : Nat := 1024

/-! ### Compression -/

/-- The word turned right by `n` bits, for `0 < n < 32`. -/
def rotateRight (x n : UInt32) : UInt32 := (x >>> n) ||| (x <<< (32 - n))

/-- Mixes two message words into a column or a diagonal of the state. -/
def mix (s : Block) (a b c d : Fin 16) (x y : UInt32) : Block :=
  let a1 := s[a] + s[b] + x
  let d1 := rotateRight (s[d] ^^^ a1) 16
  let c1 := s[c] + d1
  let b1 := rotateRight (s[b] ^^^ c1) 12
  let a2 := a1 + b1 + y
  let d2 := rotateRight (d1 ^^^ a2) 8
  let c2 := c1 + d2
  let b2 := rotateRight (b1 ^^^ c2) 7
  (((s.set a a2).set b b2).set c c2).set d d2

def round (s m : Block) : Block :=
  let s := mix s 0 4 8 12 m[0] m[1]
  let s := mix s 1 5 9 13 m[2] m[3]
  let s := mix s 2 6 10 14 m[4] m[5]
  let s := mix s 3 7 11 15 m[6] m[7]
  let s := mix s 0 5 10 15 m[8] m[9]
  let s := mix s 1 6 11 12 m[10] m[11]
  let s := mix s 2 7 8 13 m[12] m[13]
  mix s 3 4 9 14 m[14] m[15]

def permute (m : Block) : Block := schedule.map fun i => m[i]

def rounds : Nat → Block → Block → Block
  | 0, s, _ => s
  | n + 1, s, m => rounds n (round s m) (permute m)

/-- A compression that is still to be done: its place in the tree decides the last flag. -/
structure Node where
  chaining : Chaining
  block : Block
  counter : UInt64
  length : UInt32
  flags : UInt32

/-- The chaining value that a node passes on, with further flags. -/
def Node.compress (n : Node) (flags : UInt32) : Chaining :=
  let h := n.chaining
  let s := rounds 7 #v[h[0], h[1], h[2], h[3], h[4], h[5], h[6], h[7], initial[0], initial[1], initial[2],
    initial[3], n.counter.toUInt32, (n.counter >>> 32).toUInt32, n.length, n.flags ||| flags] n.block
  #v[s[0] ^^^ s[8], s[1] ^^^ s[9], s[2] ^^^ s[10], s[3] ^^^ s[11], s[4] ^^^ s[12], s[5] ^^^ s[13],
    s[6] ^^^ s[14], s[7] ^^^ s[15]]

/-! ### Blocks and chunks -/

def wordOf (bytes : List UInt8) : UInt32 :=
  bytes.foldr (fun b w => w * 256 + b.toUInt32) 0

/-- A block of at most 64 bytes, filled up with zeros. -/
def blockOf (bytes : List UInt8) : Block :=
  Vector.ofFn fun i => wordOf ((bytes.drop (4 * i.val)).take 4)

/-- Cuts a list into pieces of `n + 1` elements; only the last one may be shorter. -/
def pieces {α : Type} (n : Nat) (l : List α) : List (List α) :=
  match l with
  | [] => []
  | x :: rest => (x :: rest.take n) :: pieces n (rest.drop n)
termination_by l.length
decreasing_by simp only [List.length_drop, List.length_cons]; omega

/-- The node of the last block of a chunk, after compressing the blocks before it. -/
def chunkNode (counter : UInt64) (c : Chaining) (flags : UInt32) : List (List UInt8) → Node
  | [] => ⟨c, blockOf [], counter, 0, flags ||| chunkEnd⟩
  | [last] => ⟨c, blockOf last, counter, last.length.toUInt32, flags ||| chunkEnd⟩
  | block :: more =>
    chunkNode counter ((Node.mk c (blockOf block) counter 64 flags).compress 0) 0 more

/-- The node of the chunk with the number `counter`. -/
def chunk (counter : UInt64) (bytes : List UInt8) : Node :=
  chunkNode counter initial chunkStart (pieces (blockSize - 1) bytes)

/-! ### The tree -/

def parent (left right : Node) : Node :=
  let l := left.compress 0
  let r := right.compress 0
  ⟨initial, l ++ r, 0, 64, parentNode⟩

/-- The number of chunks in the left subtree of more than one chunk: the greatest power of two below. -/
def leftSize (n : Nat) : Nat := Nat.pow 2 (n - 1).log2

theorem leftSize_pos (n : Nat) : 0 < leftSize n := Nat.two_pow_pos _

theorem leftSize_lt {n : Nat} (h : 1 < n) : leftSize n < n := by
  have := Nat.log2_self_le (n := n - 1) (by omega)
  simp only [leftSize, Nat.pow_eq]; omega

def tree (nodes : List Node) : Node :=
  match nodes with
  | [] => chunk 0 []
  | [n] => n
  | a :: b :: rest =>
    let all := a :: b :: rest
    let k := leftSize all.length
    parent (tree (all.take k)) (tree (all.drop k))
termination_by nodes.length
decreasing_by
  · have := leftSize_lt (n := (a :: b :: rest).length) (by simp)
    simp only [List.length_take]
    omega
  · have := leftSize_pos (a :: b :: rest).length
    have : 0 < (a :: b :: rest).length := by simp
    simp only [List.length_drop]
    omega

def wordBytes (w : UInt32) : Vector UInt8 4 :=
  #v[w.toUInt8, (w >>> 8).toUInt8, (w >>> 16).toUInt8, (w >>> 24).toUInt8]

def hash (bytes : List UInt8) : Vector UInt8 32 :=
  let chunks := (pieces (chunkSize - 1) bytes).zipIdx.map fun c => chunk c.2.toUInt64 c.1
  let words := (tree chunks).compress rootNode
  (words.map wordBytes).flatten

end StageLineage.Blake3

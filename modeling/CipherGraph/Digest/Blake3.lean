import CipherGraph.Text.Hex

/-! # BLAKE3

The input is cut into chunks of 1024 bytes, each compressed block by block, and the
chunks' values are joined pairwise into a tree whose root gives the digest.
-/

namespace CipherGraph.Blake3

def iv : List UInt32 :=
  [0x6A09E667, 0xBB67AE85, 0x3C6EF372, 0xA54FF53A, 0x510E527F, 0x9B05688C, 0x1F83D9AB, 0x5BE0CD19]

def permutation : List Nat := [2, 6, 3, 10, 7, 0, 4, 13, 1, 11, 12, 5, 9, 14, 15, 8]

def chunkStart : UInt32 := 1

def chunkEnd : UInt32 := 2

def parentNode : UInt32 := 4

def rootNode : UInt32 := 8

def deriveContext : UInt32 := 32

def deriveMaterial : UInt32 := 64

def rotateRight (x n : UInt32) : UInt32 := (x >>> n) ||| (x <<< (32 - n))

def word (s : Array UInt32) (i : Nat) : UInt32 := s.getD i 0

/-- Mixes two message words into four words of the state. -/
def mix (s : Array UInt32) (a b c d : Nat) (x y : UInt32) : Array UInt32 :=
  let a₁ := word s a + word s b + x
  let d₁ := rotateRight (word s d ^^^ a₁) 16
  let c₁ := word s c + d₁
  let b₁ := rotateRight (word s b ^^^ c₁) 12
  let a₂ := a₁ + b₁ + y
  let d₂ := rotateRight (d₁ ^^^ a₂) 8
  let c₂ := c₁ + d₂
  let b₂ := rotateRight (b₁ ^^^ c₂) 7
  (((s.setIfInBounds a a₂).setIfInBounds b b₂).setIfInBounds c c₂).setIfInBounds d d₂

/-- The columns of the state, then its diagonals. -/
def round (s m : Array UInt32) : Array UInt32 :=
  let s := mix s 0 4 8 12 (word m 0) (word m 1)
  let s := mix s 1 5 9 13 (word m 2) (word m 3)
  let s := mix s 2 6 10 14 (word m 4) (word m 5)
  let s := mix s 3 7 11 15 (word m 6) (word m 7)
  let s := mix s 0 5 10 15 (word m 8) (word m 9)
  let s := mix s 1 6 11 12 (word m 10) (word m 11)
  let s := mix s 2 7 8 13 (word m 12) (word m 13)
  mix s 3 4 9 14 (word m 14) (word m 15)

def permute (m : Array UInt32) : Array UInt32 := (permutation.map (word m)).toArray

def rounds : Nat → Array UInt32 → Array UInt32 → Array UInt32
  | 0, s, _ => s
  | n + 1, s, m => rounds n (round s m) (permute m)

/-- One input of the compression function: the value so far, a block and its circumstances. -/
structure Node where
  chaining : List UInt32
  block : List UInt32
  counter : Nat
  length : Nat
  flags : UInt32

/-- The first eight words of the compressed node. -/
def Node.compress (n : Node) (extra : UInt32) : List UInt32 :=
  let tail : List UInt32 :=
    [UInt32.ofNat n.counter, UInt32.ofNat (n.counter >>> 32), UInt32.ofNat n.length,
      n.flags ||| extra]
  let s := rounds 7 (n.chaining ++ iv.take 4 ++ tail).toArray n.block.toArray
  (List.range 8).map fun i => word s i ^^^ word s (i + 8)

def wordsOf : Bytes → List UInt32
  | a :: b :: c :: d :: rest => UInt32.ofNat (Bytes.toNat [a, b, c, d]) :: wordsOf rest
  | _ => []

def bytesOf (words : List UInt32) : Bytes := words.flatMap fun w => Bytes.ofNat 4 w.toNat

/-- A block of a chunk, filled up with zeros. -/
def blockNode (chaining : List UInt32) (block : Bytes) (counter : Nat) (flags : UInt32) : Node :=
  ⟨chaining, wordsOf (block ++ List.replicate (64 - block.length) 0), counter, block.length, flags⟩

/-- The last block of a chunk after `fuel` blocks at most; the others are compressed on the way. -/
def chunkNode (flags : UInt32) (counter : Nat) :
    Nat → List UInt32 → Bytes → UInt32 → Node
  | 0, chaining, bytes, start => blockNode chaining bytes counter (flags ||| start ||| chunkEnd)
  | fuel + 1, chaining, bytes, start =>
    if bytes.length ≤ 64 then blockNode chaining bytes counter (flags ||| start ||| chunkEnd)
    else
      let first := blockNode chaining (bytes.take 64) counter (flags ||| start)
      chunkNode flags counter fuel (first.compress 0) (bytes.drop 64) 0

/-- The chunks of the input, numbered; an empty input is one empty chunk. -/
def chunks (key : List UInt32) (flags : UInt32) (bytes : Bytes) (counter : Nat) : List Node :=
  if bytes.length ≤ 1024 then [chunkNode flags counter 16 key bytes chunkStart]
  else
    chunkNode flags counter 16 key (bytes.take 1024) chunkStart ::
      chunks key flags (bytes.drop 1024) (counter + 1)
termination_by bytes.length
decreasing_by simp only [List.length_drop]; omega

/-- Joins neighbours; a node without one goes up as it is. -/
def joinPairs (key : List UInt32) (flags : UInt32) : List Node → List Node
  | a :: b :: rest =>
    ⟨key, a.compress 0 ++ b.compress 0, 0, 64, flags ||| parentNode⟩ :: joinPairs key flags rest
  | rest => rest

theorem length_joinPairs_lt (key : List UInt32) (flags : UInt32) (a b : Node) (rest : List Node) :
    (joinPairs key flags (a :: b :: rest)).length < (a :: b :: rest).length := by
  have le : ∀ l : List Node, (joinPairs key flags l).length ≤ l.length := by
    intro l
    fun_induction joinPairs key flags l with
    | case1 _ _ _ ih => simp; omega
    | case2 => simp
  have := le rest
  simp [joinPairs]
  omega

def root (key : List UInt32) (flags : UInt32) : List Node → List UInt32
  | [] => []
  | [node] => node.compress rootNode
  | a :: b :: rest => root key flags (joinPairs key flags (a :: b :: rest))
termination_by nodes => nodes.length
decreasing_by exact length_joinPairs_lt key flags a b rest

def hashWith (key : List UInt32) (flags : UInt32) (input : Bytes) : Bytes :=
  bytesOf (root key flags (chunks key flags input 0))

def hash (input : Bytes) : Bytes := hashWith iv 0 input

/-- A 32-byte key derived from key material, for the purpose that `context` names. -/
def deriveKey (context : String) (material : Bytes) : Bytes :=
  hashWith (wordsOf (hashWith iv deriveContext (Bytes.ofString context))) deriveMaterial material

def hex (input : Bytes) : String := Hex.ofBytes (hash input)

end CipherGraph.Blake3

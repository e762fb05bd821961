import CipherGraph.Text.Bytes

/-! # Seeded randomness

A 64-bit seed is stretched to a ChaCha20 key, and the first bytes of that cipher's
stream are the random bytes.
-/

namespace CipherGraph.ChaCha

def rotateLeft (x n : UInt32) : UInt32 := (x <<< n) ||| (x >>> (32 - n))

def word (s : Array UInt32) (i : Nat) : UInt32 := s.getD i 0

def quarter (s : Array UInt32) (a b c d : Nat) : Array UInt32 :=
  let a₁ := word s a + word s b
  let d₁ := rotateLeft (word s d ^^^ a₁) 16
  let c₁ := word s c + d₁
  let b₁ := rotateLeft (word s b ^^^ c₁) 12
  let a₂ := a₁ + b₁
  let d₂ := rotateLeft (d₁ ^^^ a₂) 8
  let c₂ := c₁ + d₂
  let b₂ := rotateLeft (b₁ ^^^ c₂) 7
  (((s.setIfInBounds a a₂).setIfInBounds b b₂).setIfInBounds c c₂).setIfInBounds d d₂

def doubleRound (s : Array UInt32) : Array UInt32 :=
  let s := quarter s 0 4 8 12
  let s := quarter s 1 5 9 13
  let s := quarter s 2 6 10 14
  let s := quarter s 3 7 11 15
  let s := quarter s 0 5 10 15
  let s := quarter s 1 6 11 12
  let s := quarter s 2 7 8 13
  quarter s 3 4 9 14

def rounds : Nat → Array UInt32 → Array UInt32
  | 0, s => s
  | n + 1, s => rounds n (doubleRound s)

def constants : List UInt32 := [0x61707865, 0x3320646e, 0x79622d32, 0x6b206574]

def keyWords : Bytes → List UInt32
  | a :: b :: c :: d :: rest => UInt32.ofNat (Bytes.toNat [a, b, c, d]) :: keyWords rest
  | _ => []

def firstBlock (key : Bytes) : Bytes :=
  let start := (constants ++ keyWords key ++ List.replicate 4 0).toArray
  let final := rounds 10 start
  (List.range 16).flatMap fun i => Bytes.ofNat 4 (word start i + word final i).toNat

/-- Four bytes of the stretched seed for every step of a linear congruential generator. -/
def stretch : Nat → Nat → Bytes
  | 0, _ => []
  | count + 1, s =>
    let s := (s * 6364136223846793005 + 11634580027462260723) % UInt64.size
    let x := ((s >>> 18) ^^^ s) >>> 27 % UInt32.size
    let turn := s >>> 59
    let rotated := (x >>> turn ||| x <<< (32 - turn)) % UInt32.size
    Bytes.ofNat 4 rotated ++ stretch count s

end CipherGraph.ChaCha

namespace CipherGraph

/-- A source of random bytes, given by the key of its stream. -/
structure Random where
  key : Bytes

namespace Random

def ofSeed (seed : UInt64) : Random := ⟨ChaCha.stretch 8 seed.toNat⟩

def secretSeed (r : Random) : Bytes := (ChaCha.firstBlock r.key).take 32

end Random

end CipherGraph

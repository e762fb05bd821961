import CipherGraph.Text.Bytes

/-! # FNV-1a

A short fingerprint of long data: 64 bits, folded over its bytes.
-/

namespace CipherGraph.Fnv

def offset : UInt64 := 0xcbf29ce484222325

def prime : UInt64 := 0x100000001b3

def step (h : UInt64) (b : UInt8) : UInt64 := (h ^^^ b.toUInt64) * prime

def hash (input : Bytes) : UInt64 := input.foldl step offset

/-- The fingerprint of 64-bit words, each as its bytes, lowest first. -/
def ofWords (words : List UInt64) : UInt64 :=
  words.foldl (fun h w => (Bytes.ofNat 8 w.toNat).foldl step h) offset

end CipherGraph.Fnv

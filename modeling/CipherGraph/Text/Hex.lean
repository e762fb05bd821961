import CipherGraph.Text.Bytes

/-! # Hexadecimal text

Two lower-case digits a byte, highest first.
-/

namespace CipherGraph.Hex

def digit (n : Nat) : Char := if n < 10 then Char.ofNat (48 + n) else Char.ofNat (87 + n)

/-- Either case is read. -/
def digit? (c : Char) : Option Nat :=
  if '0' ≤ c ∧ c ≤ '9' then some (c.toNat - 48)
  else if 'a' ≤ c ∧ c ≤ 'f' then some (c.toNat - 87)
  else if 'A' ≤ c ∧ c ≤ 'F' then some (c.toNat - 55)
  else none

/-- The `count` low hexadecimal digits of a number, highest first. -/
def digits : Nat → Nat → List Char
  | 0, _ => []
  | count + 1, n => digits count (n / 16) ++ [digit (n % 16)]

/-- The fixed-width spelling of a 64-bit identifier. -/
def word (n : Nat) : String := String.ofList (digits 16 n)

def ofBytes (b : Bytes) : String := String.ofList (b.flatMap fun x => digits 2 x.toNat)

def pairs? : List Char → Option Bytes
  | [] => some []
  | [_] => none
  | hi :: lo :: rest => do
    let h ← digit? hi
    let l ← digit? lo
    let tail ← pairs? rest
    return UInt8.ofNat (16 * h + l) :: tail

def toBytes? (s : String) : Option Bytes := pairs? s.toList

end CipherGraph.Hex

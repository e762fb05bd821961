/-! # Byte strings

Blobs, digests and encoded values are lists of bytes. Text enters and leaves
them as UTF-8.
-/

namespace CipherGraph

abbrev Bytes := List UInt8

namespace Bytes

def ofString (s : String) : Bytes := s.toUTF8.toList

/-- Reads UTF-8, refusing every byte string that is not an encoding. -/
def toString? (b : Bytes) : Option String := String.fromUTF8? b.toByteArray

def toNat : Bytes → Nat
  | [] => 0
  | b :: rest => b.toNat + 256 * toNat rest

/-- The `count` low bytes of a number, lowest first. -/
def ofNat : Nat → Nat → Bytes
  | 0, _ => []
  | count + 1, n => UInt8.ofNat n :: ofNat count (n / 256)

/-- Puts `fresh` for the first occurrence of `old`; `acc` holds what is passed over, backwards. -/
def replaceFrom (old fresh : Bytes) : Bytes → Bytes → Option Bytes
  | [], acc => if old.isEmpty then some (acc.reverseAux fresh) else none
  | b :: rest, acc =>
    if old.isPrefixOf (b :: rest) then
      some (acc.reverseAux (fresh ++ (b :: rest).drop old.length))
    else replaceFrom old fresh rest (b :: acc)

/-- The text with `fresh` for the first occurrence of `old`, if there is one. -/
def replaceFirst? (text old fresh : Bytes) : Option Bytes := replaceFrom old fresh text []

@[simp] theorem length_ofNat (count n : Nat) : (ofNat count n).length = count := by
  induction count generalizing n with
  | zero => rfl
  | succ count ih => simp [ofNat, ih]

theorem toNat_ofNat (count n : Nat) : toNat (ofNat count n) = n % (1 <<< (8 * count)) := by
  induction count generalizing n with
  | zero => simp [ofNat, toNat, Nat.mod_one]
  | succ count ih =>
    have split : 1 <<< (8 * (count + 1)) = 256 * 1 <<< (8 * count) := by
      rw [Nat.one_shiftLeft, Nat.one_shiftLeft, Nat.mul_succ, Nat.pow_add, Nat.mul_comm]
    rw [ofNat, toNat, ih, split, Nat.mod_mul, UInt8.toNat_ofNat']

end Bytes

end CipherGraph

import CipherGraph.Text.Bytes

/-! # Decimal digits

Naturals and integers as decimal text, and back.
-/

namespace CipherGraph.Decimal

/-- The decimal digits of a natural number, highest first, with no leading zero. -/
def digits (n : Nat) : List Nat := if n < 10 then [n] else digits (n / 10) ++ [n % 10]

def value (ds : List Nat) : Nat := ds.foldl (fun acc d => 10 * acc + d) 0

theorem value_append_singleton (ds : List Nat) (d : Nat) :
    value (ds ++ [d]) = 10 * value ds + d := by
  simp [value]

theorem value_digits (n : Nat) : value (digits n) = n := by
  induction n using digits.induct with
  | case1 n h => rw [digits]; simp [h, value]
  | case2 n h ih => rw [digits]; simp only [h, ↓reduceIte, value_append_singleton, ih]; omega

theorem digits_ne_nil (n : Nat) : digits n ≠ [] := by
  rw [digits]; split <;> simp

theorem lt_ten_of_mem_digits {n d : Nat} (h : d ∈ digits n) : d < 10 := by
  induction n using digits.induct with
  | case1 n hn => rw [digits] at h; simp [hn] at h; omega
  | case2 n hn ih =>
    rw [digits] at h
    simp only [hn, ↓reduceIte, List.mem_append, List.mem_singleton] at h
    rcases h with h | h
    · exact ih h
    · omega

def digitByte (d : Nat) : UInt8 := UInt8.ofNat (48 + d)

def isDigit (b : UInt8) : Bool := 48 ≤ b && b ≤ 57

def digitOf (b : UInt8) : Nat := b.toNat - 48

def ofNat (n : Nat) : Bytes := (digits n).map digitByte

def ofInt : Int → Bytes
  | .ofNat n => ofNat n
  | .negSucc n => 45 :: ofNat (n + 1)

theorem isDigit_digitByte {d : Nat} (h : d < 10) : isDigit (digitByte d) = true := by
  have : ∀ d : Fin 10, isDigit (digitByte d) = true := by decide
  exact this ⟨d, h⟩

theorem digitOf_digitByte {d : Nat} (h : d < 10) : digitOf (digitByte d) = d := by
  have : ∀ d : Fin 10, digitOf (digitByte d) = d := by decide
  exact this ⟨d, h⟩

end CipherGraph.Decimal

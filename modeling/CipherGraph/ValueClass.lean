import CipherGraph.Json.Codec

/-! # Classes of values

A value is raw, encoded or encrypted. The classes are ordered, and an operation
yields the largest class among its operands.
-/

namespace CipherGraph

inductive ValueClass where
  | raw
  | plain
  | cipher
deriving DecidableEq, Repr

namespace ValueClass

def rank : ValueClass → Nat
  | .raw => 0
  | .plain => 1
  | .cipher => 2

instance : LE ValueClass := ⟨fun a b => a.rank ≤ b.rank⟩

instance : LT ValueClass := ⟨fun a b => a.rank < b.rank⟩

instance (a b : ValueClass) : Decidable (a ≤ b) := inferInstanceAs (Decidable (a.rank ≤ b.rank))

instance (a b : ValueClass) : Decidable (a < b) := inferInstanceAs (Decidable (a.rank < b.rank))

def join (a b : ValueClass) : ValueClass := if a ≤ b then b else a

def isCipher (a : ValueClass) : Bool := a = .cipher

def name : ValueClass → String
  | .raw => "raw"
  | .plain => "plain"
  | .cipher => "cipher"

/-- The name in a record. -/
def tag : ValueClass → String
  | .raw => "Raw"
  | .plain => "Plain"
  | .cipher => "Cipher"

def ofTag? (s : String) : Option ValueClass := [raw, plain, cipher].find? (·.tag = s)

theorem join_comm (a b : ValueClass) : a.join b = b.join a := by cases a <;> cases b <;> rfl

theorem join_assoc (a b c : ValueClass) : (a.join b).join c = a.join (b.join c) := by
  cases a <;> cases b <;> cases c <;> rfl

@[simp] theorem join_self (a : ValueClass) : a.join a = a := by cases a <;> rfl

@[simp] theorem raw_join (a : ValueClass) : raw.join a = a := by cases a <;> rfl

end ValueClass

instance : ToJson ValueClass := ⟨fun c => Json.ofString c.tag⟩

instance : OfJson ValueClass where
  ofJson? j := do
    match ← j.choice? with
    | (tag, .null) => ValueClass.ofTag? tag
    | _ => none

end CipherGraph

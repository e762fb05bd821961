import CipherGraph.Scheme.Basic

/-! # Packed values

The two packed families hold vectors of slots. Operations work slot by slot, and rotations
turn every row of slots by itself.
-/

namespace CipherGraph

/-- `level` counts the levels still to spend. -/
structure PackedPlaintext (τ : Type) where
  level : Nat
  scaleBits : Nat
  slots : List τ
deriving DecidableEq, Repr

structure PackedCiphertext (τ : Type) where
  keyId : KeyId
  level : Nat
  scaleBits : Nat
  slots : List τ
deriving DecidableEq, Repr

namespace Packed

variable {τ : Type}

def zipSlots (f : τ → τ → τ) (lhs rhs : List τ) : Except EvalError (List τ) :=
  if lhs.length = rhs.length then .ok (List.zipWith f lhs rhs)
  else .error (.invalid (.slotMismatch lhs.length rhs.length))

def zip (f : τ → τ → τ) (level : Nat) (lhs rhs : PackedCiphertext τ) :
    Except EvalError (PackedCiphertext τ) := do
  sameKey lhs.keyId rhs.keyId
  return { lhs with level, slots := ← zipSlots f lhs.slots rhs.slots }

/-- The function has the ciphertext's slot first. -/
def zipPlain (f : τ → τ → τ) (level : Nat) (lhs : PackedCiphertext τ) (rhs : PackedPlaintext τ) :
    Except EvalError (PackedCiphertext τ) := do
  return { lhs with level, slots := ← zipSlots f lhs.slots rhs.slots }

def map (f : τ → τ) (c : PackedCiphertext τ) : PackedCiphertext τ :=
  { c with slots := c.slots.map f }

/-- Turns every row of `row + 1` slots left; the last row may be shorter. -/
def turnRows (row k : Nat) (slots : List τ) : List τ :=
  if slots.length ≤ row + 1 then turnLeft (k % slots.length) slots
  else turnLeft k (slots.take (row + 1)) ++ turnRows row k (slots.drop (row + 1))
termination_by slots.length
decreasing_by simp only [List.length_drop]; omega

def rotateRows (row : Nat) (step : Int) (slots : List τ) : List τ :=
  match row with
  | 0 => slots
  | row + 1 => turnRows row (step.emod (row + 1 : Nat)).toNat slots

def rotate (ev : Evaluator) (c : PackedCiphertext τ) (step : Int) :
    Except EvalError (PackedCiphertext τ) := do
  ev.requireRotation step
  return { c with slots := rotateRows ev.context.rowSize step c.slots }

def checkCount (context : Context) (count : Nat) : Except EvalError Unit :=
  if count = context.slotCount then .ok ()
  else .error (.invalid (.slotCount context.slotCount count))

/-- A wrong count in received bytes is a fault of the bytes. -/
def checkReceived (context : Context) (count : Nat) : Except EvalError Unit :=
  if count = context.slotCount then .ok ()
  else .error (.malformed (.slotCount context.slotCount count))

def decrypt (secret : SecretKey) (c : PackedCiphertext τ) :
    Except EvalError (PackedPlaintext τ) := do
  sameKey secret.keyId c.keyId
  return ⟨c.level, c.scaleBits, c.slots⟩

end Packed

instance {τ : Type} [ToJson τ] : ToJson (PackedPlaintext τ) where
  toJson p := Json.ofRecord
    [("level", toJson p.level), ("scale_bits", toJson p.scaleBits), ("slots", toJson p.slots)]

instance {τ : Type} [OfJson τ] : OfJson (PackedPlaintext τ) where
  ofJson? j := do
    match ← j.fields? ["level", "scale_bits", "slots"] with
    | [level, scaleBits, slots] =>
      return ⟨← (← level).below? UInt32.size, ← (← scaleBits).below? UInt32.size,
        ← Json.required? slots⟩
    | _ => none

instance {τ : Type} [ToJson τ] : ToJson (PackedCiphertext τ) where
  toJson c := Json.ofRecord
    [("key_id", toJson c.keyId), ("level", toJson c.level), ("scale_bits", toJson c.scaleBits),
      ("slots", toJson c.slots)]

instance {τ : Type} [OfJson τ] : OfJson (PackedCiphertext τ) where
  ofJson? j := do
    match ← j.fields? ["key_id", "level", "scale_bits", "slots"] with
    | [keyId, level, scaleBits, slots] =>
      return ⟨← Json.required? keyId, ← (← level).below? UInt32.size,
        ← (← scaleBits).below? UInt32.size, ← Json.required? slots⟩
    | _ => none

def readReceived {α : Type} [OfJson α] (bytes : Bytes) : Except EvalError α :=
  match Json.read? bytes with
  | some a => .ok a
  | none => .error (.malformed .unparsable)

end CipherGraph

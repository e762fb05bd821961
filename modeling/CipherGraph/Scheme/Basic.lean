import CipherGraph.Keys
import CipherGraph.Scheme.Slot

/-! # Schemes

A scheme supplies the representation of encoded and encrypted values and the primitives
that work on them. The families here compute on the cleartext slots and keep account of keys,
levels and moduli; they hide nothing.
-/

namespace CipherGraph

/-- What every primitive works with. -/
structure Evaluator where
  context : Context
  keys : Option EvaluationKeys

namespace Evaluator

def requireKeys (ev : Evaluator) : Except EvalError EvaluationKeys :=
  match ev.keys with
  | some keys => .ok keys
  | none => .error .missingEvaluationKeys

def requireRelin (ev : Evaluator) : Except EvalError Unit := do
  if (← ev.requireKeys).relin then return () else throw .missingRelinKey

/-- A rotation by whole rows changes nothing and needs no key. -/
def requireRotation (ev : Evaluator) (step : Int) : Except EvalError Unit := do
  if step.emod (max ev.context.rowSize 1) = 0 then return ()
  match ev.context.galoisElement? step with
  | none => throw (.missingRotationKey step)
  | some element =>
    if (← ev.requireKeys).galoisElements.contains element then return ()
    else throw (.missingRotationKey step)

end Evaluator

/-- Moves the first `k` slots to the end. -/
def turnLeft {α : Type} (k : Nat) (slots : List α) : List α := slots.drop k ++ slots.take k

/-- Turns a vector left by a signed step, whole turns left out. -/
def turnBy {α : Type} (step : Int) (slots : List α) : List α :=
  turnLeft (step.emod slots.length).toNat slots

/-- The samples that encryption draws from its generator, one for each slot. -/
abbrev Noise := Nat → Float

def Noise.silent : Noise := fun _ => 0.0

/-- `combinePlain` has the ciphertext first and `combineLeft` the plaintext. -/
structure Scheme where
  kind : SchemeKind
  Slot : Type
  Plaintext : Type
  Ciphertext : Type
  slot : CipherGraph.Slot Slot
  encode : Context → List Slot → Nat → Nat → Except EvalError Plaintext
  decode : Context → Plaintext → List Slot
  encrypt : Context → KeyId → Plaintext → (noise : Noise := .silent) → Native Ciphertext
  decrypt : Context → SecretKey → Ciphertext → Native Plaintext
  keyId : Ciphertext → KeyId
  isLive : Ciphertext → Vault → Bool
  hasZero : Plaintext → Bool
  combine : Arithmetic → Evaluator → Ciphertext → Ciphertext → Native Ciphertext
  combinePlain : Arithmetic → Evaluator → Ciphertext → Plaintext → Native Ciphertext
  combineLeft : Arithmetic → Evaluator → Plaintext → Ciphertext → Native Ciphertext
  negate : Evaluator → Ciphertext → Native Ciphertext
  rotate : Evaluator → Ciphertext → Int → Native Ciphertext
  rotationStep : Nat → Nat → Bool → Int
  rotateRaw : Context → Int → List Slot → List Slot
  reduceRaw : Context → List Slot → List Slot
  writeCiphertext : Ciphertext → Native Bytes
  readCiphertext : Context → Bytes → Native Ciphertext
  writePlaintext : Plaintext → Bytes
  readPlaintext : Context → Bytes → Except EvalError Plaintext
  /-- The native cells behind a ciphertext, each a context's number and a handle. -/
  cells : Ciphertext → List (Nat × Nat)

attribute [instance] Scheme.slot

def sameKey (expected found : KeyId) : Except EvalError Unit :=
  if expected = found then .ok () else .error (.keyMismatch expected found)

end CipherGraph

import CipherGraph.Scheme.Packed

/-! # The gate-level family

Single unsigned integers of one to eight bits. Arithmetic is modulo `2 ^ bitWidth`, rotation
turns bits, and every gate needs the evaluation keys. Ciphertexts are cells of a native heap.
-/

namespace CipherGraph.Gates

structure Plaintext where
  value : UInt8
deriving DecidableEq, Repr

/-- A cell of the heap of the context with this number. -/
structure Ciphertext where
  context : Nat
  handle : Nat
  keyId : KeyId
deriving DecidableEq, Repr

def mask (context : Context) : UInt8 := UInt8.ofNat ((1 <<< min context.params.bitWidth 8) - 1)

def value (c : Ciphertext) : Native UInt8 := do return (← Native.read c.context c.handle).value

def alloc (context : Context) (keyId : KeyId) (value : UInt8) : Native Ciphertext := do
  if context.hasHeap then
    let handle ← Native.alloc context.number ⟨keyId, value⟩
    return ⟨context.number, handle, keyId⟩
  else throw (.invalid .noHeap)

def gate (ev : Evaluator) (c : Ciphertext) (f : UInt8 → UInt8) : Native Ciphertext := do
  let _ ← liftM ev.requireKeys
  let v ← value c
  alloc ev.context c.keyId (f v &&& mask ev.context)

def second (a b : Ciphertext) : Native UInt8 := do
  liftM (sameKey a.keyId b.keyId)
  value b

/-- An encrypted division by zero sets all bits. -/
def divide (m a b : UInt8) : UInt8 := if b = 0 then m else a / b

def apply (m : UInt8) : Arithmetic → UInt8 → UInt8 → UInt8
  | .add, a, b => a + b
  | .sub, a, b => a - b
  | .mul, a, b => a * b
  | .div, a, b => divide m a b

def combine (op : Arithmetic) (ev : Evaluator) (a b : Ciphertext) : Native Ciphertext := do
  let v ← second a b
  gate ev a fun x => apply (mask ev.context) op x v

def combinePlain (op : Arithmetic) (ev : Evaluator) (a : Ciphertext) (b : Plaintext) :
    Native Ciphertext := do
  if op = .div && b.value = 0 then throw .divisionByZero
  gate ev a fun x => apply (mask ev.context) op x b.value

def combineLeft (op : Arithmetic) (ev : Evaluator) (a : Plaintext) (b : Ciphertext) :
    Native Ciphertext :=
  match op with
  | .add | .mul => combinePlain op ev b a
  | .sub | .div => gate ev b fun x => apply (mask ev.context) op a.value x

/-- Turns the low `width` bits left. -/
def rotateBits (v : UInt8) (step : Int) (width : Nat) : UInt8 :=
  let width := max 1 (min width 8)
  let shift := (step.emod width).toNat
  let m := UInt8.ofNat ((1 <<< width) - 1)
  let v := v &&& m
  if shift = 0 then v
  else ((v <<< UInt8.ofNat shift) ||| (v >>> UInt8.ofNat (width - shift))) &&& m

/-- Rotations count bits, so the vector width does not matter. -/
def rotationStep (steps _width : Nat) (left : Bool) : Int :=
  let step : Int := (steps % 8 : Nat)
  if left then step else -step

def encode (context : Context) : List UInt8 → Except EvalError Plaintext
  | [v] => .ok ⟨v &&& mask context⟩
  | slots => .error (.invalid (.oneSlotOnly slots.length))

def decrypt (secret : SecretKey) (c : Ciphertext) : Native Plaintext := do
  liftM (sameKey secret.keyId c.keyId)
  return ⟨← value c⟩

def isLive (c : Ciphertext) (v : Vault) : Bool :=
  ((v.heap? c.context).bind (·.read? c.handle)).isSome

instance : ToJson NativeCell where
  toJson c := Json.ofRecord [("key_id", toJson c.keyId), ("value", toJson c.value)]

instance : OfJson NativeCell where
  ofJson? j := do
    match ← j.fields? ["key_id", "value"] with
    | [keyId, value] => return ⟨← Json.required? keyId, ← Json.required? value⟩
    | _ => none

instance : ToJson Plaintext where
  toJson p := Json.ofRecord [("value", toJson p.value)]

instance : OfJson Plaintext where
  ofJson? j := do
    match ← j.fields? ["value"] with
    | [value] => return ⟨← Json.required? value⟩
    | _ => none

def writeCiphertext (c : Ciphertext) : Native Bytes := do
  return (toJson (NativeCell.mk c.keyId (← value c))).render

/-- A value with bits beyond the message is refused. -/
def readCiphertext (context : Context) (bytes : Bytes) : Native Ciphertext := do
  let cell ← liftM (readReceived bytes : Except EvalError NativeCell)
  if cell.value &&& ~~~(mask context) ≠ 0 then
    throw (.malformed (.bits cell.value context.params.bitWidth))
  alloc context cell.keyId cell.value

def readPlaintext (context : Context) (bytes : Bytes) : Except EvalError Plaintext := do
  let p : Plaintext ← readReceived bytes
  return ⟨p.value &&& mask context⟩

end CipherGraph.Gates

namespace CipherGraph

def Scheme.bitwise : Scheme where
  kind := .bitwise
  Slot := UInt8
  Plaintext := Gates.Plaintext
  Ciphertext := Gates.Ciphertext
  slot := inferInstance
  encode context slots _ _ := Gates.encode context slots
  decode _ p := [p.value]
  encrypt context keyId p _ := Gates.alloc context keyId (p.value &&& Gates.mask context)
  decrypt _ := Gates.decrypt
  keyId c := c.keyId
  isLive := Gates.isLive
  hasZero p := p.value == 0
  combine := Gates.combine
  combinePlain := Gates.combinePlain
  combineLeft := Gates.combineLeft
  negate ev c := Gates.gate ev c fun x => -x
  rotate ev c step := Gates.gate ev c fun x => Gates.rotateBits x step ev.context.params.bitWidth
  rotationStep := Gates.rotationStep
  rotateRaw context step slots :=
    slots.map fun v => Gates.rotateBits v step context.params.bitWidth
  reduceRaw context slots := slots.map (· &&& Gates.mask context)
  writeCiphertext := Gates.writeCiphertext
  readCiphertext := Gates.readCiphertext
  writePlaintext p := (toJson p).render
  readPlaintext := Gates.readPlaintext
  cells c := [(c.context, c.handle)]

end CipherGraph

import CipherGraph.Scheme.Packed

/-! # The exact family

Packed residues modulo the plain modulus. Integers are encoded as their residues, and
residues above half the modulus decode to negative integers.
-/

namespace CipherGraph.Exact

abbrev Plaintext := PackedPlaintext UInt64

abbrev Ciphertext := PackedCiphertext UInt64

def modulus (context : Context) : Nat := context.params.plainModulus.toNat

def addMod (t : Nat) (a b : UInt64) : UInt64 := UInt64.ofNat ((a.toNat + b.toNat) % t)

def subMod (t : Nat) (a b : UInt64) : UInt64 := UInt64.ofNat ((a.toNat + t - b.toNat % t) % t)

def mulMod (t : Nat) (a b : UInt64) : UInt64 := UInt64.ofNat (a.toNat * b.toNat % t)

def residue (t : Nat) (v : Int64) : UInt64 := UInt64.ofNat (v.toInt.emod t).toNat

/-- The integer of least magnitude with this residue. -/
def centered (t : Nat) (r : UInt64) : Int64 :=
  if r.toNat > t / 2 then Int64.ofInt ((r.toNat : Int) - t) else Int64.ofNat r.toNat

def encode (context : Context) (slots : List Int64) : Except EvalError Plaintext := do
  Packed.checkCount context slots.length
  return ⟨0, 0, slots.map (residue (modulus context))⟩

def decode (context : Context) (p : Plaintext) : List Int64 :=
  p.slots.map (centered (modulus context))

def decrypt (secret : SecretKey) (c : Ciphertext) : Except EvalError Plaintext := do
  let p ← Packed.decrypt secret c
  return ⟨0, 0, p.slots⟩

def hasZero (p : Plaintext) : Bool := p.slots.contains 0

def combine (op : Arithmetic) (ev : Evaluator) (a b : Ciphertext) :
    Except EvalError Ciphertext := do
  let t := modulus ev.context
  match op with
  | .add => Packed.zip (addMod t) 0 a b
  | .sub => Packed.zip (subMod t) 0 a b
  | .mul =>
    ev.requireRelin
    Packed.zip (mulMod t) 0 a b
  | .div => throw (.unsupported .cipherByCipher)

def combinePlain (op : Arithmetic) (ev : Evaluator) (a : Ciphertext) (b : Plaintext) :
    Except EvalError Ciphertext :=
  let t := modulus ev.context
  match op with
  | .add => Packed.zipPlain (addMod t) 0 a b
  | .sub => Packed.zipPlain (subMod t) 0 a b
  | .mul => Packed.zipPlain (mulMod t) 0 a b
  | .div => .error (.unsupported .cipherByPlain)

def combineLeft (op : Arithmetic) (ev : Evaluator) (a : Plaintext) (b : Ciphertext) :
    Except EvalError Ciphertext :=
  match op with
  | .add | .mul => combinePlain op ev b a
  | .sub => .error (.unsupported .plainMinusCipher)
  | .div => .error (.unsupported .plainByCipher)

def checkResidues (context : Context) (slots : List UInt64) : Except EvalError Unit :=
  match slots.find? fun r => r.toNat ≥ modulus context with
  | some r => .error (.malformed (.residue r context.params.plainModulus))
  | none => .ok ()

def readCiphertext (context : Context) (bytes : Bytes) : Except EvalError Ciphertext := do
  let c : Ciphertext ← readReceived bytes
  Packed.checkReceived context c.slots.length
  checkResidues context c.slots
  return c

def readPlaintext (context : Context) (bytes : Bytes) : Except EvalError Plaintext := do
  let p : Plaintext ← readReceived bytes
  Packed.checkReceived context p.slots.length
  checkResidues context p.slots
  return p

end CipherGraph.Exact

namespace CipherGraph

def Scheme.bfv : Scheme where
  kind := .bfv
  Slot := Int64
  Plaintext := Exact.Plaintext
  Ciphertext := Exact.Ciphertext
  slot := inferInstance
  encode context slots _ _ := Exact.encode context slots
  decode := Exact.decode
  encrypt _ keyId p _ := return ⟨keyId, 0, 0, p.slots⟩
  decrypt _ secret c := liftM (Exact.decrypt secret c)
  keyId c := c.keyId
  isLive _ _ := true
  hasZero := Exact.hasZero
  combine op ev a b := liftM (Exact.combine op ev a b)
  combinePlain op ev a b := liftM (Exact.combinePlain op ev a b)
  combineLeft op ev a b := liftM (Exact.combineLeft op ev a b)
  negate ev c := return Packed.map (Exact.subMod (Exact.modulus ev.context) 0) c
  rotate ev c step := liftM (Packed.rotate ev c step)
  rotationStep := CipherGraph.rotationStep
  rotateRaw _ := turnBy
  reduceRaw _ slots := slots
  writeCiphertext c := return (toJson c).render
  readCiphertext context bytes := liftM (Exact.readCiphertext context bytes)
  writePlaintext p := (toJson p).render
  readPlaintext := Exact.readPlaintext
  cells _ := []

end CipherGraph

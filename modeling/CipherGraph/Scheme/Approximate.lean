import CipherGraph.Scheme.Packed

/-! # The approximate family

Packed reals. Every product of ciphertexts, and every division, spends one level; at level
zero none can follow. Division multiplies by a reciprocal, an encrypted one found by iteration.
-/

namespace CipherGraph.Approximate

abbrev Plaintext := PackedPlaintext Float

abbrev Ciphertext := PackedCiphertext Float

def encode (context : Context) (slots : List Float) (scaleBits level : Nat) :
    Except EvalError Plaintext := do
  Packed.checkCount context slots.length
  if scaleBits = 0 then throw (.invalid .zeroScale)
  if context.maxLevel < level then throw .levelExhausted
  return ⟨context.maxLevel - level, scaleBits, slots⟩

/-- The deviation of the noise, `3.2 / 2 ^ scaleBits` with the exponent taken as a signed 32-bit
number, leaves the range of finite reals for these exponents. -/
def deviationOverflows (scaleBits : Nat) : Bool :=
  UInt32.size / 2 ≤ scaleBits && scaleBits ≤ UInt32.size - 1023

def addNoise (noise : Noise) (slots : List Float) : List Float :=
  slots.mapIdx fun i x => x + noise i

/-- Where the parameters ask for noise, each slot has its sample added, whatever was drawn. -/
def encrypt (context : Context) (keyId : KeyId) (p : Plaintext) (noise : Noise) :
    Except EvalError Ciphertext :=
  if context.params.noise then
    if deviationOverflows p.scaleBits then .error (.invalid .noiseDeviation)
    else .ok ⟨keyId, p.level, p.scaleBits, addNoise noise p.slots⟩
  else .ok ⟨keyId, p.level, p.scaleBits, p.slots⟩

/-- The level left after a product. -/
def rescale (level : Nat) : Except EvalError Nat :=
  match level with
  | 0 => .error .levelExhausted
  | level + 1 => .ok level

def twoTo (e : Int) : Float :=
  if e < 0 then 1.0 / Float.scaleB 1.0 (-e) else Float.scaleB 1.0 e

def sign (x : Float) : Float := if x.isNaN then x else if x < 0.0 then -1.0 else 1.0

/-- The exponent of the first guess at the reciprocal. -/
def guessExponent (x : Float) : Int :=
  let e := x.abs.log2.ceil
  if e.isNaN then 0 else if e.isInf then Int32.minValue.toInt else -e.toInt64.toInt

def newton (x : Float) : Nat → Float → Float
  | 0, y => y
  | n + 1, y => newton x n (y * (2.0 - x * y))

def largest : Float := 1.7976931348623157e308

/-- The reciprocal by six steps of Newton's iteration; zero has the largest finite real. -/
def inverse (x : Float) : Float :=
  if x == 0.0 then largest else newton x 6 (sign x * twoTo (guessExponent x))

def hasZero (p : Plaintext) : Bool := p.slots.any (· == 0.0)

def combine (op : Arithmetic) (ev : Evaluator) (a b : Ciphertext) :
    Except EvalError Ciphertext := do
  let level := min a.level b.level
  match op with
  | .add => Packed.zip (fun x y => x + y) level a b
  | .sub => Packed.zip (fun x y => x - y) level a b
  | .mul =>
    ev.requireRelin
    Packed.zip (fun x y => x * y) (← rescale level) a b
  | .div =>
    ev.requireRelin
    Packed.zip (fun x y => x * inverse y) (← rescale level) a b

def combinePlain (op : Arithmetic) (a : Ciphertext) (b : Plaintext) :
    Except EvalError Ciphertext := do
  let level := min a.level b.level
  match op with
  | .add => Packed.zipPlain (fun x y => x + y) level a b
  | .sub => Packed.zipPlain (fun x y => x - y) level a b
  | .mul => Packed.zipPlain (fun x y => x * y) (← rescale level) a b
  | .div =>
    if hasZero b then throw .divisionByZero
    Packed.zipPlain (fun x y => x * (1.0 / y)) (← rescale level) a b

def combineLeft (op : Arithmetic) (a : Plaintext) (b : Ciphertext) :
    Except EvalError Ciphertext := do
  match op with
  | .add | .mul => combinePlain op b a
  | .sub => throw (.unsupported .plainMinusCipher)
  | .div =>
    Packed.zipPlain (fun c p => p * inverse c) (← rescale (min a.level b.level)) b a

def readCiphertext (context : Context) (bytes : Bytes) : Except EvalError Ciphertext := do
  let c : Ciphertext ← readReceived bytes
  Packed.checkReceived context c.slots.length
  return c

def readPlaintext (context : Context) (bytes : Bytes) : Except EvalError Plaintext := do
  let p : Plaintext ← readReceived bytes
  Packed.checkReceived context p.slots.length
  return p

end CipherGraph.Approximate

namespace CipherGraph

def Scheme.ckks : Scheme where
  kind := .ckks
  Slot := Float
  Plaintext := Approximate.Plaintext
  Ciphertext := Approximate.Ciphertext
  slot := inferInstance
  encode := Approximate.encode
  decode _ p := p.slots
  encrypt context keyId p noise := liftM (Approximate.encrypt context keyId p noise)
  decrypt _ secret c := liftM (Packed.decrypt secret c)
  keyId c := c.keyId
  isLive _ _ := true
  hasZero := Approximate.hasZero
  combine op ev a b := liftM (Approximate.combine op ev a b)
  combinePlain op _ a b := liftM (Approximate.combinePlain op a b)
  combineLeft op _ a b := liftM (Approximate.combineLeft op a b)
  negate _ c := return Packed.map (fun x => -x) c
  rotate ev c step := liftM (Packed.rotate ev c step)
  rotationStep := CipherGraph.rotationStep
  rotateRaw _ := turnBy
  reduceRaw _ slots := slots
  writeCiphertext c := return (toJson c).render
  readCiphertext context bytes := liftM (Approximate.readCiphertext context bytes)
  writePlaintext p := (toJson p).render
  readPlaintext := Approximate.readPlaintext
  cells _ := []

end CipherGraph

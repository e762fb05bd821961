import CipherGraph.Ascending
import CipherGraph.Context
import CipherGraph.Digest.Blake3
import CipherGraph.Random.ChaCha

/-! # Keys

A secret seed determines the public key, whose first bytes are the fingerprint that the
whole pair shares. Evaluation keys say what may be done to ciphertexts of that pair.
-/

namespace CipherGraph

structure SecretKey where
  seed : Bytes
deriving DecidableEq, Repr

structure PublicKey where
  keyId : KeyId
  material : Bytes
deriving DecidableEq, Repr

/-- For the gate-level family their mere presence lets gates be evaluated. -/
structure EvaluationKeys where
  keyId : KeyId
  relin : Bool
  galoisElements : List Nat
deriving DecidableEq, Repr

def KeyId.ofMaterial (material : Bytes) : KeyId := UInt64.ofNat (Bytes.toNat (material.take 8))

namespace SecretKey

def purpose : String := "fhegraph 2026-10 public key derivation"

def material (s : SecretKey) : Bytes := Blake3.deriveKey purpose s.seed

def publicKey (s : SecretKey) : PublicKey := ⟨KeyId.ofMaterial s.material, s.material⟩

def keyId (s : SecretKey) : KeyId := s.publicKey.keyId

end SecretKey

def PublicKey.isConsistent (k : PublicKey) : Bool := KeyId.ofMaterial k.material = k.keyId

/-- What the computing party holds of a key pair. -/
structure Public (kind : SchemeKind) where
  context : Context
  key : PublicKey
  evaluationKeys : Option EvaluationKeys
  scheme_eq : context.scheme = kind
  consistent : key.isConsistent = true
  owned : ∀ keys, evaluationKeys = some keys → keys.keyId = key.keyId

/-- What the decrypting party holds of a key pair. -/
structure Secret (kind : SchemeKind) where
  context : Context
  key : SecretKey
  scheme_eq : context.scheme = kind

namespace Public

variable {kind : SchemeKind}

def keyId (p : Public kind) : KeyId := p.key.keyId

def create (kind : SchemeKind) (context : Context) (key : PublicKey)
    (evaluationKeys : Option EvaluationKeys) : Except ExecError (Public kind) :=
  if hs : context.scheme = kind then
    if hc : key.isConsistent = true then
      match evaluationKeys with
      | none => .ok ⟨context, key, none, hs, hc, by simp⟩
      | some keys =>
        if hk : keys.keyId = key.keyId then
          .ok ⟨context, key, some keys, hs, hc, by rintro _ ⟨⟩; exact hk⟩
        else .error (.configuration (.evaluationKeys keys.keyId key.keyId))
    else .error (.configuration .fingerprint)
  else .error (.configuration (.contextScheme context.scheme kind))

def withoutEvaluationKeys (p : Public kind) : Public kind :=
  { p with evaluationKeys := none, owned := by simp }

end Public

namespace Secret

variable {kind : SchemeKind}

def keyId (s : Secret kind) : KeyId := s.key.keyId

def create (kind : SchemeKind) (context : Context) (key : SecretKey) :
    Except ExecError (Secret kind) :=
  if hs : context.scheme = kind then .ok ⟨context, key, hs⟩
  else .error (.configuration (.contextScheme context.scheme kind))

end Secret

def galoisElements (context : Context) (steps : List Int) : Except ExecError (List Nat) :=
  steps.foldlM (fun elements step =>
    match context.galoisElement? step with
    | some element => .ok (Ascending.insert element elements)
    | none => .error (.configuration (.noGaloisElement step))) []

/-- A new key pair with the evaluation keys that the requirements call for. -/
def generateKeys (kind : SchemeKind) (context : Context) (r : KeyRequirements) (random : Random) :
    Except ExecError (Public kind × Secret kind) := do
  if context.scheme ≠ kind then
    throw (.configuration (.contextScheme context.scheme kind))
  let secretKey : SecretKey := ⟨random.secretSeed⟩
  let publicKey := secretKey.publicKey
  let elements ←
    if kind.capabilities.rotationKeys then galoisElements context r.rotationSteps else pure []
  let pub ← Public.create kind context publicKey
    (some ⟨publicKey.keyId, r.relinearize, elements⟩)
  return (pub, ← Secret.create kind context secretKey)

def seedOf? (j : Json) : Option Bytes := do
  let bytes : Bytes ← (← j.array?).mapM ofJson?
  if bytes.length = 32 then some bytes else none

instance : ToJson SecretKey where
  toJson k := Json.ofRecord [("seed", toJson k.seed)]

instance : OfJson SecretKey where
  ofJson? j := do
    match ← j.fields? ["seed"] with
    | [seed] => return ⟨← seedOf? (← seed)⟩
    | _ => none

instance : ToJson PublicKey where
  toJson k := Json.ofRecord [("key_id", toJson k.keyId), ("material", toJson k.material)]

instance : OfJson PublicKey where
  ofJson? j := do
    match ← j.fields? ["key_id", "material"] with
    | [keyId, material] => return ⟨← Json.required? keyId, ← seedOf? (← material)⟩
    | _ => none

instance : ToJson EvaluationKeys where
  toJson k := Json.ofRecord
    [("key_id", toJson k.keyId), ("relin", toJson k.relin),
      ("galois_elements", toJson k.galoisElements)]

instance : OfJson EvaluationKeys where
  ofJson? j := do
    match ← j.fields? ["key_id", "relin", "galois_elements"] with
    | [keyId, relin, elements] =>
      let elements ← (← (← elements).array?).mapM (Json.below? UInt64.size)
      return ⟨← Json.required? keyId, ← Json.required? relin, Ascending.ofList elements⟩
    | _ => none

end CipherGraph

import CipherGraph.Execution.Machine

/-! # Encrypting, executing, decrypting -/

namespace CipherGraph

/-- The configured seed determines all that is random; without one it is random afresh. -/
def SchemeConfig.random (c : SchemeConfig) (fresh : Random) : Random :=
  match c.seed with
  | some seed => .ofSeed seed
  | none => fresh

/-- Selects parameters, takes their context from the cache and generates a key pair. -/
def keygen (kind : SchemeKind) (scheme : SchemeKind) (r : KeyRequirements) (c : SchemeConfig)
    (fresh : Random) (cache : ContextCache) (inUse : Context → Bool) :
    StateM Vault (ContextCache × Except ExecError (Public kind × Secret kind)) := do
  if scheme ≠ kind then return (cache, .error (.configuration (.keyScheme kind scheme)))
  match Parameters.select kind r c with
  | .error fault => return (cache, .error (.configuration (.parameters fault)))
  | .ok p =>
    match ← cache.getOrCreate p inUse with
    | (cache, .error e) => return (cache, .error e)
    | (cache, .ok context) => return (cache, generateKeys kind context r (c.random fresh))

variable (S : Scheme)

/-- The slots of an input before they are repeated: a scalar fills the width. -/
def inputSlots (name : String) (v : PlainValue) (width slotCount : Nat) :
    Except ExecError (List S.Slot) := do
  match (Slot.ofPlain v : Except SlotFault (List S.Slot)) with
  | .error fault => throw (.configuration (.inputSlots name fault))
  | .ok slots =>
    match v.length?, slots with
    | none, [] => throw (.configuration (.emptyInput name))
    | none, slot :: _ => return List.replicate width slot
    | some length, slots =>
      if length > width || slotCount % max length 1 ≠ 0 then
        throw (.configuration (.inputLength name length slotCount width))
      else return slots

/-- Encodes and perhaps encrypts one input as its signature says. -/
def encryptInput (context : Context) (keyId : KeyId) (sig : Signature) (name : String)
    (v : PlainValue) (noise : Noise) : Exec (Value S) := do
  match sig.inputs.find? name with
  | none => throw (.configuration (.undeclaredInput name))
  | some info =>
    let slots ← liftM (inputSlots S name v sig.width context.slotCount)
    if info.type = .raw then return .raw (← liftM (fill slots sig.width))
    let full ← liftM (fill slots context.slotCount)
    match S.encode context full info.scaleBits info.level with
    | .error e => throw e.alone
    | .ok p =>
      if info.type = .plain then return .plain p
      else return .cipher (← (S.encrypt context keyId p noise).alone)

/-- Encrypts a valuation under the key of either half of a pair, each input with its own noise. -/
def encrypt (context : Context) (keyId : KeyId) (v : Valuation) (sig : Signature)
    (noise : String → Noise := fun _ => .silent) : Exec (SchemeValuation S) := do
  let slots := context.slotCount
  if sig.width = 0 || sig.width > slots || slots % sig.width ≠ 0 then
    throw (.configuration (.signatureWidth sig.width slots))
  v.entries.foldlM (fun found (name, value) => do
    return found.insert name (← encryptInput S context keyId sig name value (noise name))) ∅

def execute (keys : Public S.kind) (g : Graph) (inputs : SchemeValuation S) :
    Exec (SchemeValuation S) := do
  let m ← liftM (Machine.create g keys)
  match m.bindAll inputs.entries with
  | (_, .error e) => throw e
  | (m, .ok ()) =>
    let (_, result) ← m.run
    liftM result

def openValue (secret : Secret S.kind) : Value S → Exec (List S.Slot)
  | .cipher c => do
    return S.decode secret.context (← (S.decrypt secret.context secret.key c).alone)
  | .plain p => return S.decode secret.context p
  | .raw slots => return slots

/-- Decrypts named values, keeping as many slots as the signature is wide. -/
def decrypt (secret : Secret S.kind) (v : SchemeValuation S) (sig : Signature) :
    Exec Valuation :=
  v.entries.foldlM (fun found (name, value) => do
    if let some expected := sig.outputs.find? name then
      if expected ≠ value.type then
        throw (.configuration (.outputClass name expected value.type))
    let slots ← openValue S secret value
    return found.insert name (Slot.toPlain (slots.take sig.width))) ∅

end CipherGraph

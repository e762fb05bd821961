import CipherGraph.Blob.Envelope
import CipherGraph.Blob.Grants
import CipherGraph.Keys

/-! # Key bundles

The blob that each party receives. It always records the encryption parameters, and every
other section exactly if it is granted. A bundle describes one compiled graph or a compiled group.
-/

namespace CipherGraph

structure BundleSections where
  grants : Grants
  params : Parameters
  graph : Option GraphRecord
  group : Option GroupRecord
  requirements : Option KeyRequirements
  signature : Option Signature
  signatures : Option (OrderedMap String Signature)
  publicKey : Option PublicKey
  evaluationKeys : Option EvaluationKeys
  secretKey : Option SecretKey

inductive Compilation where
  | graph (compiled : CompiledGraph)
  | group (compiled : CompiledGroup)

structure KeyBundle (kind : SchemeKind) where
  grants : Grants
  context : Context
  publicHalf : Option (Public kind)
  secretHalf : Option (Secret kind)
  graph : Option Graph
  group : Option Group
  signature : Option Signature
  signatures : Option (OrderedMap String Signature)
  requirements : Option KeyRequirements

def optionalField {α : Type} [ToJson α] (name : String) : Option α → List (String × Json)
  | some a => [(name, toJson a)]
  | none => []

instance : ToJson BundleSections where
  toJson s := Json.ofRecord
    ([("flags", toJson s.grants), ("params", toJson s.params)] ++
      optionalField "graph" s.graph ++ optionalField "group" s.group ++
      optionalField "requirements" s.requirements ++ optionalField "signature" s.signature ++
      optionalField "signatures" s.signatures ++ optionalField "public_key" s.publicKey ++
      optionalField "evaluation_keys" s.evaluationKeys ++ optionalField "secret_key" s.secretKey)

instance : OfJson BundleSections where
  ofJson? j := do
    match ← j.fields? ["flags", "params", "graph", "group", "requirements", "signature",
        "signatures", "public_key", "evaluation_keys", "secret_key"] with
    | [grants, params, graph, group, requirements, signature, signatures, publicKey,
        evaluationKeys, secretKey] =>
      return ⟨← Json.required? grants, ← Json.required? params, ← Json.defaulted? none graph,
        ← Json.defaulted? none group, ← Json.defaulted? none requirements,
        ← Json.defaulted? none signature, ← Json.defaulted? none signatures,
        ← Json.defaulted? none publicKey, ← Json.defaulted? none evaluationKeys,
        ← Json.defaulted? none secretKey⟩
    | _ => none

namespace Compilation

def scheme : Compilation → SchemeKind
  | .graph c => c.scheme
  | .group c => c.scheme

def requirements : Compilation → KeyRequirements
  | .graph c => c.requirements
  | .group c => c.requirements

def graphRecord? (counters : IdCounters) : Compilation → Option GraphRecord
  | .graph c => some (c.graph.toRecord counters)
  | .group _ => none

def groupRecord? (counters : IdCounters) : Compilation → Option GroupRecord
  | .graph _ => none
  | .group c => some (c.toRecord counters)

def signature? : Compilation → Option Signature
  | .graph c => some c.signature
  | .group _ => none

def signatures? : Compilation → Option (OrderedMap String Signature)
  | .graph _ => none
  | .group c => some (c.members.map (·.signature))

end Compilation

namespace BundleSections

def suppliedOr {α : Type} (what : BundleMaterial) : Option α → Except BlobError α
  | some a => .ok a
  | none => .error (.notSupplied what)

/-- The parameters of the halves at hand, which have to belong together. -/
def sharedParameters {kind : SchemeKind} :
    Option (Public kind) → Option (Secret kind) → Except BlobError Parameters
  | some p, some s =>
    if p.keyId = s.keyId ∧ p.context.params = s.context.params then .ok p.context.params
    else .error (.exec (.configuration .halves))
  | some p, none => .ok p.context.params
  | none, some s => .ok s.context.params
  | none, none => .error (.notSupplied .parameters)

def checkScheme (kind : SchemeKind) : Option Compilation → Except BlobError Unit
  | some c => if c.scheme = kind then .ok () else .error (.scheme kind c.scheme)
  | none => .ok ()

/-- Fills a section if it is granted. -/
def whenGranted {α β : Type} (granted : Bool) (what : BundleMaterial) (source : Option α)
    (fill : α → Option β) : Except BlobError (Option β) := do
  if granted then return fill (← suppliedOr what source) else return none

/-- The sections that the grants select, filled from the material at hand. -/
def ofMaterial {kind : SchemeKind} (publicHalf : Option (Public kind))
    (secretHalf : Option (Secret kind)) (compiled : Option Compilation) (grants : Grants)
    (counters : IdCounters) : Except BlobError BundleSections := do
  let params ← sharedParameters publicHalf secretHalf
  checkScheme kind compiled
  let graph ← whenGranted grants.nodes .nodes compiled (·.graphRecord? counters)
  let group ← whenGranted grants.nodes .nodes compiled (·.groupRecord? counters)
  let requirements ← whenGranted grants.keyGeneration .keyGeneration compiled
    (some ·.requirements)
  let signature ← whenGranted grants.signature .signature compiled (·.signature?)
  let signatures ← whenGranted grants.signature .signature compiled (·.signatures?)
  let encryptionKey ← whenGranted grants.encryption .encryption publicHalf (some ·.key)
  let executionKey ← whenGranted grants.execution .execution publicHalf (some ·.key)
  let evaluationKeys ← whenGranted grants.execution .evaluationKeys
    (publicHalf.bind (·.evaluationKeys)) some
  let secretKey ← whenGranted grants.decryption .decryption secretHalf (some ·.key)
  return ⟨grants, params, graph, group, requirements, signature, signatures,
    encryptionKey.or executionKey, evaluationKeys, secretKey⟩

/-- Every part with whether it is granted and whether it is there. -/
def parts (s : BundleSections) : List (BundlePart × Bool × Bool) :=
  [(.graph, s.grants.nodes, s.graph.isSome || s.group.isSome),
    (.requirements, s.grants.keyGeneration, s.requirements.isSome),
    (.signature, s.grants.signature, s.signature.isSome || s.signatures.isSome),
    (.publicKey, s.grants.carriesPublicKey, s.publicKey.isSome),
    (.evaluationKeys, s.grants.execution, s.evaluationKeys.isSome),
    (.secretKey, s.grants.decryption, s.secretKey.isSome)]

/-- The sections present have to be those that are granted, and describe one thing. -/
def check (s : BundleSections) : Except ContentFault Unit :=
  if s.graph.isSome && s.group.isSome then .error .graphAndGroup
  else if s.signature.isSome && s.signatures.isSome then .error .signatureAndSignatures
  else
    match s.parts.find? fun (_, granted, present) => granted != present with
    | some (part, _, present) => .error (.part part present)
    | none => .ok ()

def read (kind : SchemeKind) (blob : Bytes) : Except BlobError BundleSections := do
  let s : BundleSections ← Envelope.unwrap blob .keyBundle kind
  if s.params.scheme ≠ kind then throw (.scheme kind s.params.scheme)
  match s.check with
  | .error fault => throw (.exec (.content fault))
  | .ok () => return s

def publicHalf (kind : SchemeKind) (s : BundleSections) (context : Context) :
    Except ExecError (Option (Public kind)) :=
  match s.publicKey with
  | some key => some <$> Public.create kind context key s.evaluationKeys
  | none => .ok none

/-- The secret half, which has to match the public one. -/
def secretHalf (kind : SchemeKind) (s : BundleSections) (context : Context)
    (p : Option (Public kind)) : Except ExecError (Option (Secret kind)) := do
  match s.secretKey with
  | none => return none
  | some key =>
    let half ← Secret.create kind context key
    if p.any (·.keyId != half.keyId) then throw (.content .secretMismatch)
    return some half

end BundleSections

namespace KeyBundle

variable {kind : SchemeKind}

def write (publicHalf : Option (Public kind)) (secretHalf : Option (Secret kind))
    (compiled : Option Compilation) (grants : Grants) (counters : IdCounters) :
    Except BlobError Envelope := do
  return Envelope.wrap .keyBundle kind
    (← BundleSections.ofMaterial publicHalf secretHalf compiled grants counters)

def ofExec {α : Type} : Except ExecError α → Allocating BlobError α
  | .ok a => return a
  | .error e => throw (.exec e)

def ofGraph {α : Type} (m : Allocating GraphError α) : Allocating BlobError α := fun c =>
  match m.run.run c with
  | (.ok a, c) => (.ok a, c)
  | (.error e, c) => (.error (.graph e), c)

/-- The bundle that sections make in a context. -/
def ofSections (kind : SchemeKind) (s : BundleSections) (context : Context) :
    Allocating BlobError (KeyBundle kind) := do
  let publicHalf ← ofExec (s.publicHalf kind context)
  let secretHalf ← ofExec (s.secretHalf kind context publicHalf)
  let graph ← ofGraph (s.graph.mapM (·.restore))
  let group ← ofGraph (s.group.mapM (·.restore))
  return ⟨s.grants, context, publicHalf, secretHalf, graph, group, s.signature, s.signatures,
    s.requirements⟩

/-- Reads a bundle, taking its context from the cache. What remains to be done hands out ids. -/
def read (kind : SchemeKind) (blob : Bytes) (cache : ContextCache) (inUse : Context → Bool) :
    StateM Vault (ContextCache × Allocating BlobError (KeyBundle kind)) := do
  match BundleSections.read kind blob with
  | .error e => return (cache, throw e)
  | .ok s =>
    match ← cache.getOrCreate s.params inUse with
    | (cache, .error e) => return (cache, throw (.exec e))
    | (cache, .ok context) => return (cache, ofSections kind s context)

def presentOr {α : Type} (what : Absence) : Option α → Except BlobError α
  | some a => .ok a
  | none => .error (.exec (.absent what))

def requirePublic (b : KeyBundle kind) : Except BlobError (Public kind) :=
  presentOr .publicKey b.publicHalf

def requireSecret (b : KeyBundle kind) : Except BlobError (Secret kind) :=
  presentOr .secretKey b.secretHalf

def requireGraph (b : KeyBundle kind) : Except BlobError Graph := presentOr .graph b.graph

def requireGroup (b : KeyBundle kind) : Except BlobError Group := presentOr .group b.group

def requireSignature (b : KeyBundle kind) : Except BlobError Signature :=
  presentOr .signature b.signature

def requireMemberSignature (b : KeyBundle kind) (name : String) : Except BlobError Signature :=
  presentOr (.memberSignature name) (b.signatures.bind (·.find? name))

def requireRequirements (b : KeyBundle kind) : Except BlobError KeyRequirements :=
  presentOr .requirements b.requirements

end KeyBundle

end CipherGraph

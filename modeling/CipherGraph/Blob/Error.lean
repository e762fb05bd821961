import CipherGraph.Error

/-! # Failures of blobs

A blob may be unreadable, altered or meant for another purpose, or it may lack what its
reader or writer asks for.
-/

namespace CipherGraph

inductive BlobKind where
  | keyBundle
  | valuation
deriving DecidableEq, Repr

namespace BlobKind

def name : BlobKind → String
  | .keyBundle => "key bundle"
  | .valuation => "valuation"

/-- The name in an envelope. -/
def tag : BlobKind → String
  | .keyBundle => "key_bundle"
  | .valuation => "valuation"

def ofTag? (s : String) : Option BlobKind := [keyBundle, valuation].find? (·.tag = s)

end BlobKind

instance : ToJson BlobKind := ⟨fun k => Json.ofString k.tag⟩

instance : OfJson BlobKind where
  ofJson? j := do
    match ← j.choice? with
    | (tag, .null) => BlobKind.ofTag? tag
    | _ => none

/-- What has to be supplied for a key bundle. -/
inductive BundleMaterial where
  | parameters
  | nodes
  | keyGeneration
  | signature
  | encryption
  | execution
  | evaluationKeys
  | decryption
deriving DecidableEq, Repr

inductive BlobError where
  | unparsable
  | digest (recorded found : String)
  | format (found : String)
  | kind (expected found : BlobKind)
  | scheme (expected found : SchemeKind)
  | unknownTag (name tag : String)
  | wrongTag (name : String) (expected found : ValueClass)
  | notSupplied (what : BundleMaterial)
  | exec (error : ExecError)
  | graph (error : GraphError)

/-- The format that every envelope names. -/
def blobFormat : String := "fhegraph-wire/1"

def BundleMaterial.name : BundleMaterial → String
  | .parameters => "parameters"
  | .nodes => "node info"
  | .keyGeneration => "key generation info"
  | .signature => "signature"
  | .encryption => "encryption context"
  | .execution => "execution context"
  | .evaluationKeys => "evaluation keys"
  | .decryption => "decryption context"

namespace BlobError

/-- The cause is text that does not parse. -/
def isUnparsable : BlobError → Bool
  | .unparsable => true
  | .exec error => error.isUnparsable
  | _ => false

/-- The blob itself is unreadable, altered or mislabelled. -/
def isUnreadable : BlobError → Bool
  | .unparsable | .digest .. | .format _ | .kind .. | .scheme .. | .unknownTag .. | .wrongTag ..
  | .exec (.content _) => true
  | .notSupplied _ | .exec _ | .graph _ => false

/-- A bundle lacks what an operation needs. -/
def isAbsence : BlobError → Bool
  | .exec (.absent _) => true
  | _ => false

def message : BlobError → String
  | .unparsable => "serialization error: not a JSON value of the expected form"
  | .digest recorded found =>
    s!"digest mismatch: envelope records {recorded}, payload hashes to {found}"
  | .format found => s!"unsupported blob format '{found}', expected '{blobFormat}'"
  | .kind expected found =>
    "expected a " ++ expected.name ++ " blob, found a " ++ found.name ++ " blob"
  | .scheme expected found =>
    "blob was written for the " ++ found.name ++ " scheme, not " ++ expected.name
  | .unknownTag name tag => s!"value '{name}' has unknown tag '{tag}'"
  | .wrongTag name expected found =>
    s!"value '{name}' is tagged " ++ found.name ++ ", expected " ++ expected.name
  | .notSupplied what =>
    "bundle section '" ++ what.name ++ "' was requested but not supplied"
  | .exec error => error.message
  | .graph error => error.message

end BlobError

end CipherGraph

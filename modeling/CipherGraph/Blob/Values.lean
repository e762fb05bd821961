import CipherGraph.Blob.Envelope
import CipherGraph.Execution.Value

/-! # Blobs of values

Every value of a blob is tagged with its class, and holds the bytes that its scheme writes.
Raw slots are written as a list of plain values.
-/

namespace CipherGraph

/-- A value as a blob holds it; the tag need not be one that exists. -/
structure TaggedBytes where
  tag : String
  data : Bytes
deriving DecidableEq, Repr

structure ValuesPayload where
  entries : OrderedMap String TaggedBytes
deriving DecidableEq, Repr

/-- The classes that a reader expects; names that it does not mention may be anything. -/
inductive ExpectedClasses where
  | any
  | inputs (sig : Signature)
  | outputs (sig : Signature)

namespace ValueClass

def blobTag : ValueClass → String
  | .cipher => "ciphertext"
  | .plain => "plaintext"
  | .raw => "raw"

def ofBlobTag? (s : String) : Option ValueClass := [cipher, plain, raw].find? (·.blobTag = s)

end ValueClass

def ExpectedClasses.find? : ExpectedClasses → String → Option ValueClass
  | .any, _ => none
  | .inputs sig, name => (sig.inputs.find? name).map (·.type)
  | .outputs sig, name => sig.outputs.find? name

instance : ToJson TaggedBytes where
  toJson t := Json.ofRecord [("tag", toJson t.tag), ("data", toJson t.data)]

instance : OfJson TaggedBytes where
  ofJson? j := do
    match ← j.fields? ["tag", "data"] with
    | [tag, data] => return ⟨← Json.required? tag, ← Json.required? data⟩
    | _ => none

instance : ToJson ValuesPayload where
  toJson p := Json.ofRecord [("entries", toJson p.entries)]

instance : OfJson ValuesPayload where
  ofJson? j := do
    match ← j.fields? ["entries"] with
    | [entries] => return ⟨← Json.required? entries⟩
    | _ => none

/-- Computations on blobs of values; cells they allocate stay allocated when they fail. -/
abbrev Blobbing (α : Type) := ExceptT BlobError (StateM Vault) α

/-- A primitive's failure on the way into or out of a blob. -/
def Native.inBlob {α : Type} (m : Native α) : Blobbing α := fun v =>
  match m.run.run v with
  | (.ok a, v) => (.ok a, v)
  | (.error e, v) => (.error (.exec e.alone), v)

section

variable (S : Scheme)

def writeValue : Value S → Blobbing Bytes
  | .cipher c => (S.writeCiphertext c).inBlob
  | .plain p => return S.writePlaintext p
  | .raw slots => return (toJson (slots.map fun slot => Slot.toPlain [slot])).render

def wrapValues (v : SchemeValuation S) : Blobbing Envelope := do
  let entries ← v.entries.mapM fun (name, value) => do
    return (name, TaggedBytes.mk value.type.blobTag (← writeValue S value))
  return Envelope.wrap .valuation S.kind (ValuesPayload.mk ⟨entries⟩)

def readRaw (name : String) (data : Bytes) : Except BlobError (List S.Slot) := do
  match (Json.read? data : Option (List PlainValue)) with
  | none => throw .unparsable
  | some scalars =>
    let slots ← scalars.mapM fun v =>
      match (Slot.ofPlain v : Except SlotFault (List S.Slot)) with
      | .ok slots => .ok slots
      | .error fault => .error (.exec (.content (.rawValue name fault)))
    return slots.flatten

def readValue (context : Context) (name : String) (type : ValueClass) (data : Bytes) :
    Blobbing (Value S) := do
  match type with
  | .cipher => return .cipher (← (S.readCiphertext context data).inBlob)
  | .plain => return .plain (← Native.inBlob (liftM (S.readPlaintext context data)))
  | .raw => return .raw (← liftM (readRaw S name data))

/-- Reads one tagged value; the tag is compared before the bytes are read. -/
def readTagged (context : Context) (expected : ExpectedClasses) (name : String)
    (t : TaggedBytes) : Blobbing (Value S) := do
  match ValueClass.ofBlobTag? t.tag with
  | none => throw (.unknownTag name t.tag)
  | some type =>
    match expected.find? name with
    | some wanted =>
      if wanted ≠ type then throw (.wrongTag name wanted type)
      readValue S context name type t.data
    | none => readValue S context name type t.data

def unwrapValues (context : Context) (blob : Bytes) (expected : ExpectedClasses) :
    Blobbing (SchemeValuation S) := do
  let p : ValuesPayload ← liftM (Envelope.unwrap blob .valuation S.kind)
  p.entries.entries.foldlM (fun found (name, t) => do
    return found.insert name (← readTagged S context expected name t)) ∅

end

end CipherGraph

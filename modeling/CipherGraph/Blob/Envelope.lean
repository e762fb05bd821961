import CipherGraph.Blob.Error
import CipherGraph.Digest.Blake3

/-! # Envelopes

A blob is a JSON envelope around a payload that is JSON text itself. The envelope names the
format, what the payload is and the scheme it was written for, and records the digest of
the payload. All four are checked before the payload is read.
-/

namespace CipherGraph

/-- The payload is text in UTF-8. -/
structure Envelope where
  format : String
  kind : BlobKind
  scheme : SchemeKind
  digest : String
  payload : Bytes
deriving DecidableEq, Repr

def Json.textBytes? (j : Json) : Option Bytes := do return Bytes.ofString (← j.string?)

instance : ToJson Envelope where
  toJson e := Json.ofRecord
    [("format", toJson e.format), ("kind", toJson e.kind), ("scheme", toJson e.scheme),
      ("digest", toJson e.digest), ("payload", Json.ofBytes e.payload)]

instance : OfJson Envelope where
  ofJson? j := do
    match ← j.fields? ["format", "kind", "scheme", "digest", "payload"] with
    | [format, kind, scheme, digest, payload] =>
      return ⟨← Json.required? format, ← Json.required? kind, ← Json.required? scheme,
        ← Json.required? digest, ← (← payload).textBytes?⟩
    | _ => none

namespace Envelope

def ofPayload (kind : BlobKind) (scheme : SchemeKind) (payload : Bytes) : Envelope :=
  ⟨blobFormat, kind, scheme, Blake3.hex payload, payload⟩

def toBytes (e : Envelope) : Bytes := (toJson e).render

def wrap {α : Type} [ToJson α] (kind : BlobKind) (scheme : SchemeKind) (a : α) : Envelope :=
  ofPayload kind scheme (toJson a).render

/-- Reads an envelope of the format whose payload has the recorded digest. -/
def peek (blob : Bytes) : Except BlobError Envelope :=
  match (Json.read? blob : Option Envelope) with
  | none => .error .unparsable
  | some e =>
    if e.format ≠ blobFormat then .error (.format e.format)
    else if Blake3.hex e.payload ≠ e.digest then .error (.digest e.digest (Blake3.hex e.payload))
    else .ok e

/-- Reads the value in a blob of one kind, written for one scheme. -/
def unwrap {α : Type} [OfJson α] (blob : Bytes) (kind : BlobKind) (scheme : SchemeKind) :
    Except BlobError α := do
  let e ← peek blob
  if e.kind ≠ kind then throw (.kind kind e.kind)
  if e.scheme ≠ scheme then throw (.scheme scheme e.scheme)
  match Json.read? e.payload with
  | some a => return a
  | none => throw .unparsable

end Envelope

end CipherGraph

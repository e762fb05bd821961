import CipherGraph.Blob.Envelope
import CipherGraph.Blob.Grants
import CipherGraph.View.Text

/-! # Views of blobs

JSON for people who inspect envelopes and what a bundle grants.
-/

namespace CipherGraph

def Envelope.view (e : Envelope) : Json :=
  Json.ofRecord
    [("format", toJson e.format), ("kind", toJson e.kind.name), ("scheme", toJson e.scheme.name),
      ("digest", toJson e.digest), ("payload", briefView e.payload)]

def Grants.view (g : Grants) : Json :=
  Json.ofRecord
    [("text", textView g), ("empty", toJson g.isEmpty), ("public", toJson g.carriesPublicKey)]

end CipherGraph

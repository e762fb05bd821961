import CipherGraph.Keys
import CipherGraph.View.Graph

/-! # Views of contexts and keys

JSON for people who inspect parameters, contexts, heaps and public keys.
-/

namespace CipherGraph

def Parameters.sizes (p : Parameters) : List (String × Json) :=
  [("params", textView p), ("slots", toJson p.slotCount), ("max_level", toJson p.maxLevel),
    ("bits", toJson p.totalBits)]

/-- The view tells the Galois elements of some rotation steps. -/
def Context.view (c : Context) (steps : List Int) : List (String × Json) :=
  [("scheme", toJson c.scheme.name), ("slots", toJson c.slotCount), ("row", toJson c.rowSize),
    ("max_level", toJson c.maxLevel), ("heap", toJson c.hasHeap), ("params", textView c.params),
    ("galois", toJson (steps.map c.galoisElement?))]

def NativeHeap.view (h : NativeHeap) : Json :=
  Json.ofRecord
    [("live", toJson h.live), ("releases", toJson h.releases), ("double", toJson h.doubleReleases)]

def Public.view {kind : SchemeKind} (p : Public kind) : Json :=
  Json.ofRecord
    [("key", toJson p.keyId.text), ("material", toJson (Hex.ofBytes p.key.material)),
      ("consistent", toJson p.key.isConsistent),
      ("evaluation_keys", toJson (p.evaluationKeys.map textView)),
      ("params", textView p.context.params)]

def SecretKey.view (k : SecretKey) : Json :=
  Json.ofRecord
    [("key", toJson k.keyId.text), ("public", textView k.publicKey), ("text", textView k)]

def ContextCache.view (c : ContextCache) : Json :=
  Json.ofRecord
    [("len", toJson c.size), ("empty", toJson (c.size == 0)), ("capacity", toJson c.capacity)]

def Capabilities.view (c : Capabilities) : Json :=
  Json.ofRecord
    [("division", toJson c.division), ("plain_cipher_division", toJson c.plainByCipherDivision),
      ("plain_sub", toJson c.plainMinusCipher), ("rotation", toJson c.rotation),
      ("rotation_keys", toJson c.rotationKeys), ("levelled", toJson c.levelled)]

end CipherGraph

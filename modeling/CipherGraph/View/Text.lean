import CipherGraph.Digest.Blake3
import CipherGraph.Json.Codec

/-! # Views of texts

A text is shown whole unless it is long.
-/

namespace CipherGraph

def textView {α : Type} [ToJson α] (a : α) : Json := Json.ofBytes (toJson a).render

def pairView {α β : Type} [ToJson α] [ToJson β] (p : α × β) : Json :=
  .array [toJson p.1, toJson p.2]

def maxShownBytes : Nat := 6000

/-- A long text is shown by its length and its digest. -/
def briefView (text : Bytes) : Json :=
  if text.length ≤ maxShownBytes then Json.ofBytes text
  else Json.ofRecord [("len", toJson text.length), ("digest", toJson (Blake3.hex text))]

end CipherGraph

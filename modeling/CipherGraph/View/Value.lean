import CipherGraph.Digest.Fnv
import CipherGraph.Scheme.Packed
import CipherGraph.Valuation
import CipherGraph.View.Text

/-! # Views of values

JSON for people who inspect a computation. Reals are shown by their bits, so that nothing is
lost, and a long vector by its ends and the fingerprint of all its slots.
-/

namespace CipherGraph

class SlotView (α : Type) where
  view : α → Json
  word : α → UInt64

/-- All NaNs look alike. -/
instance : SlotView Float where
  view x := toJson (if x.isNaN then "nan" else Hex.word x.toBits.toNat)
  word x := if x.isNaN then 0x7ff8000000000000 else x.toBits

instance : SlotView Int64 := ⟨toJson, Int64.toUInt64⟩

instance : SlotView UInt64 := ⟨toJson, id⟩

instance : SlotView UInt8 := ⟨toJson, UInt8.toUInt64⟩

/-- The longest vector that is shown whole. -/
def maxShownSlots : Nat := 24

def slotsView {α : Type} [SlotView α] (slots : List α) : Json :=
  let shown (part : List α) : Json := .array (part.map SlotView.view)
  if slots.length ≤ maxShownSlots then shown slots
  else Json.ofRecord
    [("len", toJson slots.length), ("head", shown (slots.take 8)),
      ("tail", shown (slots.drop (slots.length - 4))),
      ("fnv", toJson (Hex.word (Fnv.ofWords (slots.map SlotView.word)).toNat))]

def PlainValue.view : PlainValue → Json
  | .real value => Json.ofChoice "F64" (SlotView.view value)
  | .reals values => Json.ofChoice "F64Vec" (slotsView values)
  | .integer value => Json.ofChoice "I64" (toJson value)
  | .integers values => Json.ofChoice "I64Vec" (slotsView values)
  | .byte value => Json.ofChoice "Byte" (toJson value)

/-- A value with what is known of its shape: its length if it is a vector, whether it holds reals or
integers, and its byte. -/
def PlainValue.shapeView (v : PlainValue) : List Json :=
  let (isReals, isIntegers, octet) := match v with
    | .reals _ => (true, false, Json.null)
    | .integers _ => (false, true, .null)
    | .byte b => (false, false, toJson b)
    | _ => (false, false, .null)
  [v.view, toJson v.length?, toJson isReals, toJson isIntegers, octet]

def Valuation.view (v : Valuation) : Json :=
  Json.ofRecord
    [("text", textView v), ("len", toJson v.size), ("empty", toJson (v.size == 0)),
      ("parts", .array (v.entries.map fun (name, value) =>
        .array (toJson name :: value.shapeView)))]

def PackedPlaintext.view {τ : Type} [SlotView τ] (p : PackedPlaintext τ) : Json :=
  Json.ofRecord
    [("level", toJson p.level), ("scale_bits", toJson p.scaleBits), ("slots", slotsView p.slots)]

def PackedCiphertext.view {τ : Type} [SlotView τ] (c : PackedCiphertext τ) : Json :=
  Json.ofRecord
    [("key", toJson c.keyId.text), ("level", toJson c.level), ("scale_bits", toJson c.scaleBits),
      ("slots", slotsView c.slots)]

end CipherGraph

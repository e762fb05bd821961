import CipherGraph.OrderedMap
import CipherGraph.ValueClass

/-! # Signatures

How the inputs of a compiled graph are encoded and what class its outputs have.
-/

namespace CipherGraph

/-- How one input is encoded; `level` counts the levels spent before encryption. -/
structure InputEncoding where
  type : ValueClass
  scaleBits : Nat
  level : Nat
deriving DecidableEq, Repr

structure Signature where
  width : Nat
  inputs : OrderedMap String InputEncoding
  outputs : OrderedMap String ValueClass
deriving DecidableEq, Repr

instance : ToJson InputEncoding where
  toJson e := Json.ofRecord
    [("ty", toJson e.type), ("scale_bits", toJson e.scaleBits), ("level", toJson e.level)]

instance : OfJson InputEncoding where
  ofJson? j := do
    match ← j.fields? ["ty", "scale_bits", "level"] with
    | [type, scaleBits, level] =>
      return ⟨← Json.required? type, ← (← scaleBits).below? UInt32.size,
        ← (← level).below? UInt32.size⟩
    | _ => none

instance : ToJson Signature where
  toJson s := Json.ofRecord
    [("vec_width", toJson s.width), ("inputs", toJson s.inputs), ("outputs", toJson s.outputs)]

instance : OfJson Signature where
  ofJson? j := do
    match ← j.fields? ["vec_width", "inputs", "outputs"] with
    | [width, inputs, outputs] =>
      return ⟨← (← width).below? UInt32.size, ← Json.required? inputs, ← Json.required? outputs⟩
    | _ => none

end CipherGraph

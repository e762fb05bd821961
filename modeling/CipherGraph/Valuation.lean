import CipherGraph.OrderedMap

/-! # Valuations

Named values as callers give and receive them. A scalar stands for a vector of equal slots.
-/

namespace CipherGraph

inductive PlainValue where
  | real (value : Float)
  | reals (values : List Float)
  | integer (value : Int64)
  | integers (values : List Int64)
  | byte (value : UInt8)

namespace PlainValue

/-- The length of a vector; scalars have none. -/
def length? : PlainValue → Option Nat
  | .reals values => some values.length
  | .integers values => some values.length
  | _ => none

end PlainValue

abbrev Valuation := OrderedMap String PlainValue

instance : ToJson PlainValue where
  toJson
    | .real value => Json.ofChoice "F64" (toJson value)
    | .reals values => Json.ofChoice "F64Vec" (toJson values)
    | .integer value => Json.ofChoice "I64" (toJson value)
    | .integers values => Json.ofChoice "I64Vec" (toJson values)
    | .byte value => Json.ofChoice "Byte" (toJson value)

instance : OfJson PlainValue where
  ofJson? j := do
    match ← j.content? with
    | ("F64", value) => return .real (← ofJson? value)
    | ("F64Vec", values) => return .reals (← ofJson? values)
    | ("I64", value) => return .integer (← ofJson? value)
    | ("I64Vec", values) => return .integers (← ofJson? values)
    | ("Byte", value) => return .byte (← ofJson? value)
    | _ => none

end CipherGraph

import CipherGraph.Json.Codec

/-! # Constants

The literal of a constant node. A vector shorter than the graph's width is repeated
to fill it.
-/

namespace CipherGraph

inductive Constant where
  | reals (values : List Float)
  | integers (values : List Int64)
  | byte (value : UInt8)

def isWhole (x : Float) : Bool := x.isFinite && x.floor == x

namespace Constant

def length : Constant → Nat
  | .reals values => values.length
  | .integers values => values.length
  | .byte _ => 1

def isEmpty (c : Constant) : Bool := c.length = 0

def containsZero : Constant → Bool
  | .reals values => values.any (· == 0.0)
  | .integers values => values.any (· == 0)
  | .byte value => value == 0

/-- Whether repeating the literal fills a vector of `width` slots exactly. -/
def fills (c : Constant) (width : Nat) : Bool := c.length ≠ 0 && width % c.length = 0

end Constant

instance : ToJson Constant where
  toJson
    | .reals values => Json.ofChoice "Float" (toJson values)
    | .integers values => Json.ofChoice "Int" (toJson values)
    | .byte value => Json.ofChoice "Byte" (toJson value)

instance : OfJson Constant where
  ofJson? j := do
    match ← j.content? with
    | ("Float", values) => return .reals (← ofJson? values)
    | ("Int", values) => return .integers (← ofJson? values)
    | ("Byte", value) => return .byte (← ofJson? value)
    | _ => none

end CipherGraph

import CipherGraph.Operation
import CipherGraph.Scheme.Error

/-! # Slots

What the slots of each family hold in the clear, and their arithmetic. Integers and
bytes wrap around; a divisor is never zero.
-/

namespace CipherGraph

class Slot (α : Type) where
  isZero : α → Bool
  add : α → α → α
  sub : α → α → α
  mul : α → α → α
  div : α → α → α
  neg : α → α
  ofConstant : Constant → Except SlotFault (List α)
  /-- A scalar gives one slot. -/
  ofPlain : PlainValue → Except SlotFault (List α)
  toPlain : List α → PlainValue

namespace Slot

def combine {α : Type} [Slot α] : Arithmetic → α → α → α
  | .add => add
  | .sub => sub
  | .mul => mul
  | .div => div

def realOf (v : Int64) : Float := v.toFloat

def byteReal (b : UInt8) : Float := b.toFloat

def byteInteger (b : UInt8) : Int64 := Int64.ofNat b.toNat

/-- Whole numbers beyond the integers' range become the nearest integer. -/
def integerOf (x : Float) : Except SlotFault Int64 :=
  if isWhole x then .ok x.toInt64 else .error (.notInteger x)

def byteOf (v : Int64) : Except SlotFault UInt8 :=
  if 0 ≤ v.toInt ∧ v.toInt < 256 then .ok (UInt8.ofNat v.toInt.toNat) else .error (.notByte v)

end Slot

instance : Slot Float where
  isZero x := x == 0.0
  add x y := x + y
  sub x y := x - y
  mul x y := x * y
  div x y := x / y
  neg x := -x
  ofConstant
    | .reals values => .ok values
    | .integers values => .ok (values.map Slot.realOf)
    | .byte value => .ok [Slot.byteReal value]
  ofPlain
    | .real value => .ok [value]
    | .reals values => .ok values
    | .integer value => .ok [Slot.realOf value]
    | .integers values => .ok (values.map Slot.realOf)
    | .byte value => .ok [Slot.byteReal value]
  toPlain := .reals

instance : Slot Int64 where
  isZero v := v == 0
  add v w := v + w
  sub v w := v - w
  mul v w := v * w
  div v w := v / w
  neg v := -v
  ofConstant
    | .reals values => values.mapM Slot.integerOf
    | .integers values => .ok values
    | .byte value => .ok [Slot.byteInteger value]
  ofPlain
    | .real value => [value].mapM Slot.integerOf
    | .reals values => values.mapM Slot.integerOf
    | .integer value => .ok [value]
    | .integers values => .ok values
    | .byte value => .ok [Slot.byteInteger value]
  toPlain := .integers

instance : Slot UInt8 where
  isZero b := b == 0
  add a b := a + b
  sub a b := a - b
  mul a b := a * b
  div a b := a / b
  neg a := -a
  ofConstant
    | .reals _ => .error .realConstant
    | .integers values => values.mapM Slot.byteOf
    | .byte value => .ok [value]
  ofPlain
    | .real _ | .reals _ => .error .realValue
    | .integer value => [value].mapM Slot.byteOf
    | .integers values => values.mapM Slot.byteOf
    | .byte value => .ok [value]
  toPlain values := .byte (values.headD 0)

end CipherGraph

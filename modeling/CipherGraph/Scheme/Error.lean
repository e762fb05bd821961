import CipherGraph.Constant
import CipherGraph.Scheme.Kind
import CipherGraph.Text.Hex
import CipherGraph.Valuation

/-! # Failures of scheme primitives

A primitive does not know which node it serves, so its failures name none.
-/

namespace CipherGraph

/-- The fingerprint that a key pair shares with everything encrypted under it. -/
abbrev KeyId := UInt64

def KeyId.text (k : KeyId) : String := Hex.word k.toNat

/-- Why a value does not fit the slots of a scheme. -/
inductive SlotFault where
  | notInteger (value : Float)
  | notByte (value : Int64)
  | realConstant
  | realValue

/-- A value that a primitive cannot take. -/
inductive OperandFault where
  | noHeap
  | oneSlotOnly (found : Nat)
  | slotCount (expected found : Nat)
  | slotMismatch (lhs rhs : Nat)
  | zeroScale
  | noiseDeviation
deriving DecidableEq, Repr

/-- Bytes that hold no value of the scheme. -/
inductive EncodingFault where
  | unparsable
  | slotCount (expected found : Nat)
  | residue (value modulus : UInt64)
  | bits (value : UInt8) (width : Nat)
deriving DecidableEq, Repr

/-- A combination of operands that a scheme may lack. -/
inductive Combination where
  | plainMinusCipher
  | cipherByCipher
  | cipherByPlain
  | plainByCipher
deriving DecidableEq, Repr

inductive EvalError where
  | levelExhausted
  | divisionByZero
  | missingEvaluationKeys
  | missingRelinKey
  | missingRotationKey (step : Int)
  | released (handle : Nat)
  | keyMismatch (expected found : KeyId)
  | invalid (fault : OperandFault)
  | malformed (fault : EncodingFault)
  | unsupported (what : Combination)
deriving DecidableEq, Repr

def SlotFault.message : SlotFault → String
  | .notInteger value => Decimal.plainText value ++ " is not an integer"
  | .notByte value => toString value.toInt ++ " does not fit in a byte"
  | .realConstant => "the bitwise scheme has no real constants"
  | .realValue => "the bitwise scheme cannot encode real values"

def slotCountText (expected found : Nat) : String :=
  s!"encoding needs {expected} slots, got {found}"

def OperandFault.message : OperandFault → String
  | .noHeap => "context has no native heap"
  | .oneSlotOnly found => s!"bitwise encoding takes one slot, got {found}"
  | .slotCount expected found => slotCountText expected found
  | .slotMismatch lhs rhs => s!"operands have {lhs} and {rhs} slots"
  | .zeroScale => "approximate encoding needs a positive scale"
  | .noiseDeviation => "variance is not finite in normal distribution"

def EncodingFault.message : EncodingFault → String
  | .unparsable => "not a JSON value of the expected form"
  | .slotCount expected found => slotCountText expected found
  | .residue value modulus =>
    "slot value " ++ toString value.toNat ++ " is not below " ++ toString modulus.toNat
  | .bits value width => "value " ++ toString value.toNat ++ s!" exceeds {width} bits"

def Combination.text : Combination → String
  | .plainMinusCipher => "plain - cipher"
  | .cipherByCipher => "cipher / cipher"
  | .cipherByPlain => "cipher / plain"
  | .plainByCipher => "plain / cipher"

def EvalError.message : EvalError → String
  | .levelExhausted => "the modulus chain is exhausted"
  | .divisionByZero => "division by zero"
  | .missingEvaluationKeys => "no evaluation keys"
  | .missingRelinKey => "no relinearization key"
  | .missingRotationKey step => s!"no rotation key for step {step}"
  | .released handle => s!"native value {handle} has been released"
  | .keyMismatch expected found =>
    "value belongs to key " ++ found.text ++ ", expected " ++ expected.text
  | .invalid fault => fault.message
  | .malformed fault => "malformed value: " ++ fault.message
  | .unsupported what => what.text ++ " is not supported by this scheme"

end CipherGraph

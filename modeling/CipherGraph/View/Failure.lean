import CipherGraph.Blob.Error

/-! # Categories of failures

A failure has a short category for tools beside its message for people. An error that wraps
another has the category of its cause.
-/

namespace CipherGraph

def GraphError.category : GraphError → String
  | .nodeNotFound _ => "NodeNotFound"
  | .duplicateInput _ => "DuplicateInput"
  | .duplicateOutput _ => "DuplicateOutput"
  | .arityMismatch .. => "ArityMismatch"
  | .invalidWidth _ => "InvalidVectorWidth"
  | .constantLength .. => "VectorWidthMismatch"
  | .duplicateMember _ => "DuplicateGraph"
  | .memberNotFound _ => "GraphNotFound"
  | .inputOverlap .. => "InputNameOverlap"
  | .idCollision .. => "IndexCollision"
  | .idOverflow => "Overflow"
  | .repeatedId _ | .operandCycle _ | .untypedNode _ => "GraphInconsistency"

def TypeFault.category : TypeFault → String
  | .wrongOperandCount .. => "WrongOperandCount"
  | .encodeOfNonRaw .. => "EncodeOfNonRaw"
  | .constantLength .. => "ConstantWidthMismatch"
  | .noOutputs _ => "NoOutputs"
  | .notAcyclic .. => "NotAcyclic"

def CompileError.category : CompileError → String
  | .typeFaults _ => "TypeErrors"
  | .unsupported .. => "UnsupportedOperation"
  | .mixedConstants => "SchemeUndecidable"
  | .graph cause => cause.category

def EvalError.category : EvalError → String
  | .levelExhausted => "LevelExhausted"
  | .divisionByZero => "DivisionByZero"
  | .missingEvaluationKeys => "MissingEvaluationKeys"
  | .missingRelinKey => "MissingRelinKey"
  | .missingRotationKey _ => "MissingRotationKey"
  | .released _ => "Released"
  | .keyMismatch .. => "KeyMismatch"
  | .invalid _ => "Invalid"
  | .malformed _ => "Malformed"
  | .unsupported _ => "Unsupported"

def ExecError.category : ExecError → String
  | .configuration (.parameters .chainOverflow) => "Overflow"
  | .configuration _ => "Configuration"
  | .absent _ => "NullContext"
  | .arithmetic .. => "Arithmetic"
  | .divisionByZero _ => "DivisionByZero"
  | .content _ => "Serialization"
  | .unsupported .. => "UnsupportedOperation"
  | .compile cause => cause.category
  | .graph cause => cause.category

def BlobError.category : BlobError → String
  | .unparsable => "Serialization"
  | .digest .. => "DigestMismatch"
  | .format _ => "FormatMismatch"
  | .kind .. => "KindMismatch"
  | .scheme .. => "SchemeMismatch"
  | .unknownTag .. => "UnknownTag"
  | .wrongTag .. => "TagMismatch"
  | .notSupplied _ => "MissingSection"
  | .exec cause => cause.category
  | .graph cause => cause.category

end CipherGraph

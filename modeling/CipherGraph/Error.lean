import CipherGraph.Compile.Error
import CipherGraph.Config
import CipherGraph.Scheme.Error

/-! # Failures of key generation, encryption and execution

Each category lists its causes, and a cause carries what its message names.
-/

namespace CipherGraph

/-- Parameters that no context can be derived from, or that nothing satisfies. -/
inductive ParameterFault where
  | degree (degree : UInt64)
  | primeBits (chain : List Nat)
  | modulusBits (total limit : Nat) (degree : UInt64)
  | chainOverflow
  | missingPrimes
  | batching (modulus degree : UInt64) (step : Nat)
  | bitWidth (width : Nat)
  | bitwiseModulus
  | scale (bits : Nat)
  | noDegree (width total depth : Nat)
  | noDegreeOfSlots (needed : Nat)
  | bitwiseWidth (width : Nat)
  | width (width slots : Nat)
deriving DecidableEq, Repr

/-- Parameters, widths, names or keys that do not fit together. -/
inductive ConfigurationFault where
  | parameters (fault : ParameterFault)
  | configText
  | environment (fault : VariableFault)
  | contextScheme (found expected : SchemeKind)
  | keyScheme (expected found : SchemeKind)
  | fingerprint
  | evaluationKeys (keys key : KeyId)
  | noGaloisElement (step : Int)
  | halves
  | graphWidth (width : Nat) (graph : String) (slots : Nat)
  | signatureWidth (width slots : Nat)
  | unknownInput (graph name : String)
  | undeclaredInput (name : String)
  | unboundInput (name : String)
  | inputKey (name : String) (found expected : KeyId)
  | inputSlots (name : String) (fault : SlotFault)
  | emptyInput (name : String)
  | inputLength (name : String) (length slots width : Nat)
  | vectorLength (length slots : Nat)
  | rotationRow (node : NodeId) (row : Nat)
  | outputClass (name : String) (expected found : ValueClass)
  | suppliedTwice (name : String)
  | primitive (error : EvalError) (node : Option NodeId)

/-- Keys, values or sections that are not there. -/
inductive Absence where
  | nodeValue (node : NodeId)
  | outputValue (name : String)
  | outputReleased (name : String)
  | publicKey
  | secretKey
  | graph
  | group
  | signature
  | memberSignature (name : String)
  | requirements
  | primitive (error : EvalError) (node : Option NodeId)
deriving DecidableEq, Repr

inductive ArithmeticFault where
  | constantSlots (fault : SlotFault)
  | encodeOf (found : ValueClass)
  | plainOperands (op : Arithmetic)
  | unencodedOperand (op : Arithmetic) (lhs rhs : ValueClass)
  | plainNegation
  | plainRotation
  | rawLengths (lhs rhs : Nat)
  | primitive (error : EvalError)

inductive BundlePart where
  | graph
  | requirements
  | signature
  | publicKey
  | evaluationKeys
  | secretKey
deriving DecidableEq, Repr

/-- Contents that cannot be read, or contradict themselves. -/
inductive ContentFault where
  | value (fault : EncodingFault)
  | rawValue (name : String) (fault : SlotFault)
  | graphAndGroup
  | signatureAndSignatures
  | part (part : BundlePart) (present : Bool)
  | secretMismatch

inductive ExecError where
  | configuration (fault : ConfigurationFault)
  | absent (what : Absence)
  | arithmetic (node : NodeId) (fault : ArithmeticFault)
  | divisionByZero (node : NodeId)
  | content (fault : ContentFault)
  | unsupported (node : NodeId) (op : String) (scheme : SchemeKind)
  | compile (error : CompileError)
  | graph (error : GraphError)

def chainText (chain : List Nat) : String :=
  "[" ++ ", ".intercalate (chain.map toString) ++ "]"

def ParameterFault.message : ParameterFault → String
  | .degree n => "unsupported polynomial modulus degree " ++ toString n.toNat
  | .primeBits chain =>
    "coefficient modulus primes must be 1..=60 bits, got " ++ chainText chain
  | .modulusBits total limit n =>
    s!"coefficient modulus of {total} bits exceeds {limit} for degree " ++ toString n.toNat
  | .chainOverflow => "attempt to add with overflow"
  | .missingPrimes => "the approximate scheme needs at least the two special primes"
  | .batching modulus n step =>
    "plain modulus " ++ toString modulus.toNat ++ " does not support batching for degree " ++
      toString n.toNat ++ s!" (needs t = 1 mod {step})"
  | .bitWidth w => s!"bit width {w} is outside 1..=8"
  | .bitwiseModulus => "bitwise plain modulus must be 2^bit_width"
  | .scale bits => s!"scale of {bits} bits is outside 1..=60"
  | .noDegree w total depth =>
    s!"no ring degree fits width {w} with a {total}-bit chain (depth {depth})"
  | .noDegreeOfSlots needed => s!"no ring degree has {needed} slots"
  | .bitwiseWidth w => s!"the bitwise scheme has one slot, the graph needs {w}"
  | .width w slots => s!"vector width {w} exceeds the {slots} available slots"

/-- A primitive's message, with the node it served where that is known. -/
def primitiveText (error : EvalError) : Option NodeId → String
  | some node => error.message ++ s!" (node {node})"
  | none => error.message

def ConfigurationFault.message : ConfigurationFault → String
  | .parameters fault => fault.message
  | .configText => "invalid scheme config: not a JSON value of the expected form"
  | .environment fault => fault.name ++ "=" ++ fault.value ++ " is not a valid value"
  | .contextScheme found expected =>
    "context is for the " ++ found.name ++ " scheme, not " ++ expected.name
  | .keyScheme expected found =>
    "keys for the " ++ expected.name ++ " scheme requested from a " ++ found.name ++ " compilation"
  | .fingerprint => "public key fingerprint does not match its material"
  | .evaluationKeys keys key =>
    "evaluation keys belong to key " ++ keys.text ++ ", public key is " ++ key.text
  | .noGaloisElement step => s!"no Galois element for rotation step {step}"
  | .halves => "public and secret halves belong to different key pairs"
  | .graphWidth width graph slots =>
    s!"vector width {width} of graph '{graph}' does not divide the {slots} slots"
  | .signatureWidth width slots => s!"vector width {width} does not divide the {slots} slots"
  | .unknownInput graph name => s!"graph '{graph}' has no input named '{name}'"
  | .undeclaredInput name => s!"signature has no input named '{name}'"
  | .unboundInput name => s!"input '{name}' has no value"
  | .inputKey name found expected =>
    s!"input '{name}' was encrypted under key " ++ found.text ++ ", not " ++ expected.text
  | .inputSlots name fault => s!"input '{name}': " ++ fault.message
  | .emptyInput name => s!"input '{name}' is empty"
  | .inputLength name length slots width =>
    s!"input '{name}' has length {length}, which does not divide the {slots} slots of width {width}"
  | .vectorLength length slots => s!"a vector of length {length} does not divide {slots} slots"
  | .rotationRow node row => s!"rotation at node {node} spans more than one row of {row} slots"
  | .outputClass name expected found =>
    s!"output '{name}' should be " ++ expected.name ++ ", got " ++ found.name
  | .suppliedTwice name => s!"value '{name}' is supplied by more than one party"
  | .primitive error node => primitiveText error node

def Absence.message : Absence → String
  | .nodeValue node => s!"node {node} has no value"
  | .outputValue name => s!"output '{name}' was never produced"
  | .outputReleased name => s!"output '{name}' refers to a released native value"
  | .publicKey => "bundle carries no public key"
  | .secretKey => "bundle carries no secret key"
  | .graph => "bundle carries no graph"
  | .group => "bundle carries no graph group"
  | .signature => "bundle carries no signature"
  | .memberSignature name => s!"bundle carries no signature for member '{name}'"
  | .requirements => "bundle carries no key requirements"
  | .primitive error node => primitiveText error node

def ArithmeticFault.message : ArithmeticFault → String
  | .constantSlots fault => fault.message
  | .encodeOf found => "encode expects a raw operand, got " ++ found.name
  | .plainOperands op =>
    op.name ++ " of two plaintexts; plaintext arithmetic belongs before encoding"
  | .unencodedOperand op lhs rhs =>
    op.name ++ " of " ++ lhs.name ++ " and " ++ rhs.name ++ "; raw operands must be encoded first"
  | .plainNegation => "negation of a plaintext"
  | .plainRotation => "rotation of a plaintext"
  | .rawLengths lhs rhs => s!"raw operands have {lhs} and {rhs} slots"
  | .primitive error => error.message

def BundlePart.name : BundlePart → String
  | .graph => "graph"
  | .requirements => "requirements"
  | .signature => "signature"
  | .publicKey => "public key"
  | .evaluationKeys => "evaluation keys"
  | .secretKey => "secret key"

def ContentFault.message : ContentFault → String
  | .value fault => fault.message
  | .rawValue name fault => s!"raw value '{name}': " ++ fault.message
  | .graphAndGroup => "bundle carries both a graph and a graph group"
  | .signatureAndSignatures => "bundle carries both a signature and member signatures"
  | .part p present =>
    "section '" ++ p.name ++ "' is " ++ (if present then "present" else "absent") ++
      " but the flags say otherwise"
  | .secretMismatch => "secret key does not match the public key"

namespace EvalError

def isUnparsable : EvalError → Bool
  | .malformed .unparsable => true
  | _ => false

end EvalError

namespace ExecError

def isUnparsable : ExecError → Bool
  | .configuration .configText | .content (.value .unparsable) => true
  | _ => false

/-- A failed or undefined computation. -/
def isArithmetic : ExecError → Bool
  | .arithmetic .. | .divisionByZero _ => true
  | _ => false

def message : ExecError → String
  | .configuration fault => "configuration error: " ++ fault.message
  | .absent what => "missing context: " ++ what.message
  | .arithmetic node fault => s!"arithmetic error at node {node}: " ++ fault.message
  | .divisionByZero node => s!"division by zero at node {node}"
  | .content fault => "serialization error: " ++ fault.message
  | .unsupported node op scheme =>
    s!"{op} at node {node} is not supported by the {scheme.name} backend"
  | .compile error => error.message
  | .graph error => error.message

end ExecError

namespace EvalError

/-- A primitive's failure at the node it served. -/
def atNode (node : NodeId) (e : EvalError) : ExecError :=
  match e with
  | .divisionByZero => .divisionByZero node
  | .levelExhausted | .invalid _ | .unsupported _ => .arithmetic node (.primitive e)
  | .missingEvaluationKeys | .missingRelinKey | .missingRotationKey _ | .released _ =>
    .absent (.primitive e (some node))
  | .keyMismatch .. => .configuration (.primitive e (some node))
  | .malformed fault => .content (.value fault)

/-- A primitive's failure outside any graph. -/
def alone (e : EvalError) : ExecError :=
  match e with
  | .missingEvaluationKeys | .missingRelinKey | .missingRotationKey _ | .released _ =>
    .absent (.primitive e none)
  | .malformed fault => .content (.value fault)
  | .levelExhausted | .divisionByZero | .keyMismatch .. | .invalid _ | .unsupported _ =>
    .configuration (.primitive e none)

end EvalError

end CipherGraph

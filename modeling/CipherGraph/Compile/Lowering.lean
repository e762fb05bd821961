import CipherGraph.Compile.Error
import CipherGraph.Graph.Build
import CipherGraph.Graph.Replacement

/-! # Lowering

Turns a typed graph into the operations a scheme evaluates. Raw operands of encrypted
operations are encoded, and where only one operand is encrypted it comes first, unless the scheme
takes the other order. Nodes are visited in dependency order, and each may be replaced by a new one.
-/

namespace CipherGraph

structure LoweringReport where
  encodesInserted : Nat
  commuted : Nat
  subsReplaced : Nat
deriving DecidableEq, Repr

def LoweringReport.unchanged : LoweringReport := ⟨0, 0, 0⟩

structure LoweringOptions where
  scheme : SchemeKind
  scaleBits : Nat
deriving DecidableEq, Repr

structure LoweringState where
  graph : Graph
  types : Typing
  report : LoweringReport
  counters : IdCounters

/-- A failed lowering keeps what it has done. -/
abbrev Lower (α : Type) := ExceptT CompileError (StateM LoweringState) α

/-- Whether the slots of a scheme can hold a constant. -/
def SchemeKind.holds : SchemeKind → Constant → Bool
  | .ckks, _ => true
  | _, .byte _ => true
  | .bfv, .integers _ => true
  | .bfv, .reals values => values.all isWhole
  | .bitwise, .integers values => values.all fun v => 0 ≤ v && v ≤ 255
  | .bitwise, .reals _ => false

namespace Lower

def ofGraph {α : Type} (r : Except GraphError α) : Lower α :=
  match r with
  | .ok a => return a
  | .error e => throw (.graph e)

def typeOf (id : NodeId) : Lower ValueClass := do ofGraph ((← get).types.of id)

def emit (op : Operation) (operands : List NodeId) (type : ValueClass) : Lower NodeId := do
  let s ← get
  match (s.graph.makeNode op operands).run.run s.counters with
  | (.ok (id, graph), counters) =>
    set { s with graph, types := s.types.insert id type, counters }
    return id
  | (.error e, counters) =>
    set { s with counters }
    throw (.graph e)

def emitArithmetic (op : Arithmetic) (lhs rhs : NodeId) : Lower NodeId :=
  emit (.arithmetic op) [lhs, rhs] .cipher

def count (f : LoweringReport → LoweringReport) : Lower Unit :=
  modify fun s => { s with report := f s.report }

def encode (o : LoweringOptions) (id : NodeId) : Lower NodeId := do
  count fun r => { r with encodesInserted := r.encodesInserted + 1 }
  emit (.encode o.scaleBits 0) [id] .plain

def encodeRaw (o : LoweringOptions) (id : NodeId) (type : ValueClass) : Lower NodeId :=
  if type = .raw then encode o id else return id

/-- What takes the place of an arithmetic node with an encrypted operand, if anything does. -/
def replacementOfEncrypted (o : LoweringOptions) (id : NodeId) (op : Arithmetic) (lhs rhs : NodeId)
    (lhsType rhsType : ValueClass) : Lower (Option NodeId) := do
  let caps := o.scheme.capabilities
  let lhs ← encodeRaw o lhs lhsType
  let rhs ← encodeRaw o rhs rhsType
  let again : Lower (Option NodeId) := do
    if lhsType = .raw || rhsType = .raw then return some (← emitArithmetic op lhs rhs)
    else return none
  if lhsType.isCipher then again
  else match op with
    | .add | .mul =>
      count fun r => { r with commuted := r.commuted + 1 }
      return some (← emitArithmetic op rhs lhs)
    | .sub =>
      if caps.plainMinusCipher then again
      else
        let negated ← emit .negate [rhs] .cipher
        count fun r => { r with subsReplaced := r.subsReplaced + 1 }
        return some (← emitArithmetic .add negated lhs)
    | .div =>
      if caps.plainByCipherDivision then again
      else throw (.unsupported id op.name o.scheme)

def replacementOfArithmetic (o : LoweringOptions) (id : NodeId) (op : Arithmetic) :
    Lower (Option NodeId) := do
  match (← get).graph.operands id with
  | lhs :: rhs :: _ =>
    let lhsType ← typeOf lhs
    let rhsType ← typeOf rhs
    let encrypted := lhsType.isCipher || rhsType.isCipher
    if op = .div && !o.scheme.capabilities.division && encrypted then
      throw (.unsupported id op.name o.scheme)
    if encrypted then replacementOfEncrypted o id op lhs rhs lhsType rhsType else return none
  | _ => return none

def checkRotation (o : LoweringOptions) (id : NodeId) (op : Operation) : Lower Unit := do
  let type ← typeOf id
  if !o.scheme.capabilities.rotation && type ≠ .raw then
    throw (.unsupported id op.name o.scheme)

def replacement? (o : LoweringOptions) (id : NodeId) : Lower (Option NodeId) := do
  let op ← ofGraph ((← get).graph.op? id)
  match op with
  | .aggregate _ => throw (.unsupported id op.name o.scheme)
  | .arithmetic a => replacementOfArithmetic o id a
  | .rotateLeft _ | .rotateRight _ =>
    checkRotation o id op
    return none
  | .constant value =>
    if o.scheme.holds value then return none else throw (.unsupported id op.name o.scheme)
  | .input .. | .output _ | .negate | .encode .. => return none

def step (o : LoweringOptions) (id : NodeId) : Lower Unit := do
  if let some new ← replacement? o id then
    let s ← get
    let (_, graph) ← ofGraph (s.graph.replaceUses id new)
    set { s with graph }

def everyNode (o : LoweringOptions) : Lower Unit := do
  let order ← ofGraph (← get).graph.forwardOrder
  order.forM (step o)

end Lower

/-- Lowers a graph whose nodes have the given classes; tells also what a failed lowering left. -/
def Graph.lower (g : Graph) (types : Typing) (o : LoweringOptions) (counters : IdCounters) :
    Except CompileError Unit × LoweringState :=
  (Lower.everyNode o).run.run ⟨g, types, .unchanged, counters⟩

end CipherGraph

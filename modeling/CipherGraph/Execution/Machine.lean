import CipherGraph.Execution.Value
import CipherGraph.Graph.Order

/-! # Executing graphs

A machine holds the values computed so far and evaluates one node at a time. A run
visits all nodes in dependency order and frees each value after its last use.
-/

namespace CipherGraph

/-- A graph, the keys to run it with, and the values held for its nodes. -/
structure Machine (S : Scheme) where
  graph : Graph
  keys : Public S.kind
  values : OrderedMap NodeId (Value S)

namespace Machine

variable {S : Scheme}

/-- The width of the graph has to divide the slots. -/
def create (g : Graph) (keys : Public S.kind) : Except ExecError (Machine S) :=
  let slots := keys.context.slotCount
  if g.width > slots ∨ slots % g.width ≠ 0 then
    .error (.configuration (.graphWidth g.width g.name slots))
  else .ok ⟨g, keys, ∅⟩

def context (m : Machine S) : Context := m.keys.context

def evaluator (m : Machine S) : Evaluator := ⟨m.keys.context, m.keys.evaluationKeys⟩

def held (m : Machine S) : Nat := m.values.size

def put (m : Machine S) (node : NodeId) (v : Value S) : Machine S :=
  { m with values := m.values.insert node v }

def free (m : Machine S) (node : NodeId) : Machine S := { m with values := m.values.erase node }

def value (m : Machine S) (node : NodeId) : Exec (Value S) :=
  match m.values.find? node with
  | some v => return v
  | none => throw (.absent (.nodeValue node))

/-- Binds one input; a ciphertext has to belong to the machine's key. -/
def bind (m : Machine S) (name : String) (v : Value S) : Except ExecError (Machine S) :=
  match m.graph.inputs.find? name with
  | none => .error (.configuration (.unknownInput m.graph.name name))
  | some node =>
    match v with
    | .cipher c =>
      if S.keyId c = m.keys.keyId then .ok (m.put node v)
      else .error (.configuration (.inputKey name (S.keyId c) m.keys.keyId))
    | _ => .ok (m.put node v)

/-- Binds inputs one after the other, up to the first that cannot be bound. -/
def bindAll (m : Machine S) : List (String × Value S) → Machine S × Except ExecError Unit
  | [] => (m, .ok ())
  | (name, v) :: rest =>
    match m.bind name v with
    | .ok m => m.bindAll rest
    | .error e => (m, .error e)

def constant (m : Machine S) (node : NodeId) (c : Constant) : Exec (Value S) := do
  match (Slot.ofConstant c : Except SlotFault (List S.Slot)) with
  | .error fault => throw (.arithmetic node (.constantSlots fault))
  | .ok slots => return .raw (← liftM (fill (S.reduceRaw m.context slots) m.graph.width))

def encode (m : Machine S) (node : NodeId) (v : Value S) (scaleBits level : Nat) :
    Exec (Value S) := do
  match v with
  | .raw slots =>
    let full ← liftM (fill slots m.context.slotCount)
    return .plain (← Exec.ofEval node (S.encode m.context full scaleBits level))
  | v => throw (.arithmetic node (.encodeOf v.type))

def rawArithmetic (node : NodeId) (op : Arithmetic) (a b : List S.Slot) :
    Except ExecError (List S.Slot) :=
  if a.length ≠ b.length then .error (.arithmetic node (.rawLengths a.length b.length))
  else if op = .div && b.any Slot.isZero then .error (.divisionByZero node)
  else .ok (List.zipWith (Slot.combine op) a b)

def requireKeys (m : Machine S) (node : NodeId) (op : Arithmetic) : Exec Unit := do
  if op = .div then
    let _ ← Exec.ofEval node m.evaluator.requireKeys

/-- Arithmetic by the classes of both operands. -/
def arithmetic (m : Machine S) (node : NodeId) (op : Arithmetic) (lhs rhs : Value S) :
    Exec (Value S) := do
  match lhs, rhs with
  | .raw a, .raw b =>
    let reduce := S.reduceRaw m.context
    return .raw (reduce (← liftM (rawArithmetic (S := S) node op (reduce a) (reduce b))))
  | .cipher a, .cipher b =>
    m.requireKeys node op
    return .cipher (← (S.combine op m.evaluator a b).atNode node)
  | .cipher a, .plain b =>
    if op = .div && S.hasZero b then throw (.divisionByZero node)
    m.requireKeys node op
    return .cipher (← (S.combinePlain op m.evaluator a b).atNode node)
  | .plain a, .cipher b =>
    m.requireKeys node op
    return .cipher (← (S.combineLeft op m.evaluator a b).atNode node)
  | .plain _, .plain _ => throw (.arithmetic node (.plainOperands op))
  | lhs, rhs => throw (.arithmetic node (.unencodedOperand op lhs.type rhs.type))

def negate (m : Machine S) (node : NodeId) : Value S → Exec (Value S)
  | .cipher c => do return .cipher (← (S.negate m.evaluator c).atNode node)
  | .plain _ => throw (.arithmetic node .plainNegation)
  | .raw slots => return .raw (S.reduceRaw m.context (slots.map Slot.neg))

def rotate (m : Machine S) (node : NodeId) (v : Value S) (steps : Nat) (left : Bool) :
    Exec (Value S) := do
  let step := S.rotationStep steps m.graph.width left
  match v with
  | .cipher c =>
    if S.kind.capabilities.rotationKeys && m.context.rowSize < m.graph.width then
      throw (.configuration (.rotationRow node m.context.rowSize))
    return .cipher (← (S.rotate m.evaluator c step).atNode node)
  | .plain _ => throw (.arithmetic node .plainRotation)
  | .raw slots => return .raw (S.rotateRaw m.context step slots)

/-- The value of a node that takes one operand. -/
def unary (m : Machine S) (node : NodeId) : Operation → Value S → Exec (Value S)
  | .output _, v => return v
  | .encode scaleBits level, v => m.encode node v scaleBits level
  | .negate, v => m.negate node v
  | .rotateLeft steps, v => m.rotate node v steps true
  | .rotateRight steps, v => m.rotate node v steps false
  | op, _ => throw (.unsupported node op.name S.kind)

/-- The value of a node whose operands are evaluated. -/
def evaluate (m : Machine S) (node : NodeId) (op : Operation) : Exec (Value S) := do
  match op, m.graph.operands node with
  | .aggregate _, _ => throw (.unsupported node op.name S.kind)
  | .constant c, _ => m.constant node c
  | .arithmetic a, lhs :: rhs :: _ => m.arithmetic node a (← m.value lhs) (← m.value rhs)
  | op, operand :: _ => m.unary node op (← m.value operand)
  | _, [] => throw (.absent (.nodeValue node))

/-- Evaluates a node; an input has to be bound already. -/
def visit (m : Machine S) (node : NodeId) : Exec (Machine S) := do
  match ← Exec.ofGraph (m.graph.op? node) with
  | .input name _ =>
    if m.values.contains node then return m
    else throw (.configuration (.unboundInput name))
  | op => return m.put node (← m.evaluate node op)

/-- The outputs in order, up to the first that has no value or a released one. -/
def collect (m : Machine S) (v : Vault) :
    List (String × NodeId) → SchemeValuation S → SchemeValuation S × Except ExecError Unit
  | [], found => (found, .ok ())
  | (name, node) :: rest, found =>
    match m.values.find? node with
    | none => (found, .error (.absent (.outputValue name)))
    | some (.cipher c) =>
      if S.isLive c v then m.collect v rest (found.insert name (.cipher c))
      else (found, .error (.absent (.outputReleased name)))
    | some value => m.collect v rest (found.insert name value)

def outputs (m : Machine S) (v : Vault) : SchemeValuation S × Except ExecError Unit :=
  m.collect v m.graph.outputs.entries ∅

/-- How many consumers of each node are still to be visited. -/
abbrev Remaining := OrderedMap NodeId Nat

/-- After a visit, frees the operands that no one will read any more, outputs apart. -/
def freeOperands (m : Machine S) (left : Remaining) : List NodeId → Machine S × Remaining
  | [] => (m, left)
  | operand :: rest =>
    match left.find? operand with
    | none => m.freeOperands left rest
    | some count =>
      let left := left.insert operand (count - 1)
      if count - 1 = 0 && !m.graph.outputs.values.contains operand then
        (m.free operand).freeOperands left rest
      else m.freeOperands left rest

/-- Visits nodes in order; tells also where a failed run stopped. -/
def visitAll (m : Machine S) (left : Remaining) :
    List NodeId → StateM Vault (Machine S × Except ExecError Unit)
  | [] => return (m, .ok ())
  | node :: rest => do
    match ← (m.visit node).run with
    | .error e => return (m, .error e)
    | .ok m =>
      let (m, left) := m.freeOperands left (m.graph.operands node)
      m.visitAll left rest

def run (m : Machine S) : StateM Vault (Machine S × Except ExecError (SchemeValuation S)) := do
  match m.graph.forwardOrder with
  | .error e => return (m, .error (.graph e))
  | .ok order =>
    match ← m.visitAll m.graph.useCounts order with
    | (m, .error e) => return (m, .error e)
    | (m, .ok ()) =>
      match m.outputs (← get) with
      | (found, .ok ()) => return (m, .ok found)
      | (_, .error e) => return (m, .error e)

end Machine

end CipherGraph

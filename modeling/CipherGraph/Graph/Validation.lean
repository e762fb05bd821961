import CipherGraph.Graph.Typing

/-! # Validation

Everything that keeps a graph from being compiled, found in one pass.
-/

namespace CipherGraph

inductive TypeFault where
  | wrongOperandCount (node : NodeId) (op : String) (expected actual : Nat)
  | encodeOfNonRaw (node operand : NodeId) (actual : ValueClass)
  | constantLength (node : NodeId) (length width : Nat)
  | noOutputs (graph : String)
  | notAcyclic (graph : String) (cause : GraphError)
deriving DecidableEq, Repr

namespace TypeFault

def message : TypeFault → String
  | .wrongOperandCount node op expected actual =>
    s!"node {node} ({op}) expects {expected} operand(s), got {actual}"
  | .encodeOfNonRaw node operand actual =>
    s!"encode at node {node} needs a raw operand, node {operand} is " ++ actual.name
  | .constantLength node length width =>
    s!"constant at node {node} has length {length}, which does not divide width {width}"
  | .noOutputs graph => s!"graph '{graph}' declares no outputs"
  | .notAcyclic graph cause => s!"graph '{graph}' is not acyclic: " ++ cause.message

end TypeFault

namespace Graph

def outputFaults (g : Graph) : List TypeFault :=
  if g.outputs.entries.isEmpty then [.noOutputs g.name] else []

def countFaults (g : Graph) (node : Node) : List TypeFault :=
  let actual := (g.operands node.id).length
  if actual = node.op.arity then []
  else [.wrongOperandCount node.id node.op.name node.op.arity actual]

def lengthFaults (g : Graph) (node : Node) : List TypeFault :=
  match node.op with
  | .constant value =>
    if value.fills g.width then [] else [.constantLength node.id value.length g.width]
  | _ => []

def encodeFaults (g : Graph) (t : Typing) (node : Node) : List TypeFault :=
  match node.op with
  | .encode .. => (g.operands node.id).filterMap fun operand =>
    match t.find? operand with
    | none | some .raw => none
    | some actual => some (.encodeOfNonRaw node.id operand actual)
  | _ => []

/-- Operands of encodings are looked at only in graphs that can be typed. -/
def validate (g : Graph) : List TypeFault :=
  g.outputFaults ++ g.nodes.flatMap (fun n => g.countFaults n ++ g.lengthFaults n) ++
    match g.inferTypes with
    | .ok t => g.nodes.flatMap (g.encodeFaults t)
    | .error cause => [.notAcyclic g.name cause]

end Graph

end CipherGraph

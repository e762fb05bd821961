import CipherGraph.IdSpace

/-! # Graph errors

Why building, restoring or traversing a graph or a group failed.
-/

namespace CipherGraph

inductive GraphError where
  | nodeNotFound (id : NodeId)
  | duplicateInput (name : String)
  | duplicateOutput (name : String)
  | arityMismatch (op : String) (expected actual : Nat)
  | invalidWidth (width : Nat)
  | constantLength (width length : Nat)
  | duplicateMember (name : String)
  | memberNotFound (name : String)
  | inputOverlap (name graph : String)
  | idCollision (id : NodeId) (graph : String)
  | repeatedId (id : NodeId)
  | idOverflow
  | operandCycle (id : NodeId)
  | untypedNode (id : NodeId)
deriving DecidableEq, Repr

namespace GraphError

/-- Whether the graph itself breaks a rule that all graphs keep. -/
def isInconsistency : GraphError → Bool
  | .repeatedId _ | .operandCycle _ | .untypedNode _ => true
  | _ => false

def message : GraphError → String
  | .nodeNotFound id => s!"node not found: NodeId({id})"
  | .duplicateInput name => s!"duplicate input name: '{name}'"
  | .duplicateOutput name => s!"duplicate output name: '{name}'"
  | .arityMismatch op expected actual => s!"{op} expects {expected} operand(s), got {actual}"
  | .invalidWidth width => s!"invalid vector width {width}"
  | .constantLength width length =>
    s!"value of length {length} does not divide vector width {width}"
  | .duplicateMember name => s!"duplicate graph name in group: '{name}'"
  | .memberNotFound name => s!"graph not found in group: '{name}'"
  | .inputOverlap name graph =>
    s!"input '{name}' of graph '{graph}' is already declared by another graph of the group"
  | .idCollision id graph =>
    s!"node id {id} of graph '{graph}' collides with an id already used in the group"
  | .repeatedId id => s!"graph inconsistency: node id {id} appears twice"
  | .idOverflow => "attempt to add with overflow"
  | .operandCycle id => s!"graph inconsistency: operand cycle through node {id}"
  | .untypedNode id => s!"graph inconsistency: node {id} has no inferred type"

end GraphError

end CipherGraph

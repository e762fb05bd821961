import CipherGraph.Graph.Order

/-! # Typing

Every node of an acyclic graph has a class: inputs the one they declare, constants raw,
encodings plain, and every other node the largest class among its operands.
-/

namespace CipherGraph

abbrev Typing := OrderedMap NodeId ValueClass

namespace Typing

def of (t : Typing) (id : NodeId) : Except GraphError ValueClass :=
  match t.find? id with
  | some c => .ok c
  | none => .error (.untypedNode id)

def joinAll (t : Typing) : ValueClass → List NodeId → Except GraphError ValueClass
  | c, [] => .ok c
  | c, id :: rest => do joinAll t (c.join (← t.of id)) rest

end Typing

namespace Graph

/-- The class of one node, given the classes of its operands. -/
def typeOf (g : Graph) (t : Typing) (id : NodeId) : Except GraphError ValueClass := do
  match ← g.op? id with
  | .encode .. => return .plain
  | .constant _ => return .raw
  | .input _ type => return type
  | _ => t.joinAll .raw (g.operands id)

def typeAlong (g : Graph) : List NodeId → Typing → Except GraphError Typing
  | [], t => .ok t
  | id :: rest, t => do typeAlong g rest (t.insert id (← g.typeOf t id))

def inferTypes (g : Graph) : Except GraphError Typing := do
  g.typeAlong (← g.forwardOrder) ∅

end Graph

end CipherGraph

import CipherGraph.Group

/-! # Records of graphs and groups

The flat form in which graphs travel: nodes in id order, one triple for every operand edge,
and the first id a restored graph may hand out.
-/

namespace CipherGraph

structure GraphRecord where
  name : String
  width : Nat
  next : NodeId
  nodes : List Node
  operands : List (NodeId × Nat × NodeId)

structure GroupRecord where
  name : String
  next : NodeId
  members : List GraphRecord

namespace Graph

/-- The operands of a node, numbered by their position. -/
def operandTriples (g : Graph) (id : NodeId) : List (NodeId × Nat × NodeId) :=
  (g.operands id).mapIdx fun position operand => (id, position, operand)

def toRecord (g : Graph) (c : IdCounters) : GraphRecord :=
  ⟨g.name, g.width, c.peek g.space, g.nodes, g.ids.flatMap g.operandTriples⟩

end Graph

namespace GraphRecord

/-- Restores a graph whose ids come from `space`, which is moved up to the record's next id. -/
def restoreIn (r : GraphRecord) (space : IdSpace) : Allocating GraphError Graph := do
  Allocating.advance space r.next
  Graph.ofParts r.name r.width r.nodes r.operands space

def restore (r : GraphRecord) : Allocating GraphError Graph := do
  r.restoreIn (← Allocating.openSpace r.next)

end GraphRecord

namespace Group

def toRecord (gr : Group) (c : IdCounters) : GroupRecord :=
  ⟨gr.name, c.peek gr.space, gr.graphs.map (·.toRecord c)⟩

end Group

namespace GroupRecord

/-- Restores the members one by one, each as a graph built elsewhere. -/
def restore (r : GroupRecord) : Allocating GraphError Group := do
  let space ← Allocating.openSpace r.next
  r.members.foldlM (fun gr member => do gr.addGraph (← member.restore)) (Group.create r.name space)

end GroupRecord

def idOf? (j : Json) : Option NodeId := j.below? NodeId.bound

instance : ToJson Node where
  toJson n := Json.ofRecord [("id", Json.ofNat n.id), ("op", toJson n.op)]

instance : OfJson Node where
  ofJson? j := do
    match ← j.fields? ["id", "op"] with
    | [id, op] => return ⟨← idOf? (← id), ← Json.required? op⟩
    | _ => none

def tripleOf? : Json → Option (NodeId × Nat × NodeId)
  | .array [consumer, position, operand] => do
    return (← idOf? consumer, ← position.below? UInt16.size, ← idOf? operand)
  | _ => none

instance : ToJson GraphRecord where
  toJson r := Json.ofRecord
    [("name", toJson r.name), ("vec_width", toJson r.width), ("next_index", Json.ofNat r.next),
      ("nodes", toJson r.nodes),
      ("operands", .array (r.operands.map fun (consumer, position, operand) =>
        .array [Json.ofNat consumer, Json.ofNat position, Json.ofNat operand]))]

instance : OfJson GraphRecord where
  ofJson? j := do
    match ← j.fields? ["name", "vec_width", "next_index", "nodes", "operands"] with
    | [name, width, next, nodes, operands] =>
      return ⟨← Json.required? name, ← (← width).below? UInt32.size, ← idOf? (← next),
        ← Json.required? nodes, ← (← (← operands).array?).mapM tripleOf?⟩
    | _ => none

instance : ToJson GroupRecord where
  toJson r := Json.ofRecord
    [("name", toJson r.name), ("next_index", Json.ofNat r.next), ("members", toJson r.members)]

instance : OfJson GroupRecord where
  ofJson? j := do
    match ← j.fields? ["name", "next_index", "members"] with
    | [name, next, members] =>
      return ⟨← Json.required? name, ← idOf? (← next), ← Json.required? members⟩
    | _ => none

end CipherGraph

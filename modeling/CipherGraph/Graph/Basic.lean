import CipherGraph.Graph.Error
import CipherGraph.Operation
import CipherGraph.OrderedMap

/-! # Graphs

A graph is a set of nodes and the edges from operands to their consumers. An edge
says at which position its consumer reads, so a node's operand list is its incoming edges by
position. Edges are kept newest first, and among edges of one position the newer comes first.

Ids are reused only after a counter has wrapped around. The node that takes an id over hides
its earlier bearer, which stays in the graph with its edges; a place tells the bearers apart.
-/

namespace CipherGraph

structure Node where
  id : NodeId
  op : Operation

/-- A node of a graph: its id, and how many nodes of that id came before it. -/
structure Place where
  id : NodeId
  bearer : Nat
deriving DecidableEq, Repr

structure Edge where
  source : Place
  target : Place
  position : Nat
deriving DecidableEq, Repr

/-- `nodes` ascend by id, `hidden` lists the ids of hidden nodes, and `edges` are newest first. -/
structure Graph where
  name : String
  width : Nat
  nodes : List Node
  hidden : List NodeId
  edges : List Edge
  inputs : OrderedMap String NodeId
  outputs : OrderedMap String NodeId
  space : IdSpace

namespace Graph

def blank (name : String) (width : Nat) (space : IdSpace) : Graph :=
  ⟨name, width, [], [], [], ∅, ∅, space⟩

def ids (g : Graph) : List NodeId := g.nodes.map (·.id)

def node? (g : Graph) (id : NodeId) : Option Node := g.nodes.find? (·.id = id)

def contains (g : Graph) (id : NodeId) : Bool := (g.node? id).isSome

/-- Hidden nodes count. -/
def nodeCount (g : Graph) : Nat := g.nodes.length + g.hidden.length

/-- The place of the node that bears an id now. -/
def place (g : Graph) (id : NodeId) : Place := ⟨id, g.hidden.count id⟩

def op? (g : Graph) (id : NodeId) : Except GraphError Operation :=
  match g.node? id with
  | some node => .ok node.op
  | none => .error (.nodeNotFound id)

def require (g : Graph) (id : NodeId) : Except GraphError Unit :=
  if g.contains id then .ok () else .error (.nodeNotFound id)

def incoming (g : Graph) (id : NodeId) : List Edge := g.edges.filter (·.target = g.place id)

def outgoing (g : Graph) (id : NodeId) : List Edge := g.edges.filter (·.source = g.place id)

def operands (g : Graph) (id : NodeId) : List NodeId :=
  ((g.incoming id).mergeSort fun a b => a.position ≤ b.position).map (·.source.id)

def readsBefore (a b : NodeId × Nat) : Bool := a.1 < b.1 || (a.1 = b.1 && a.2 ≤ b.2)

/-- The consumers of a node with the positions they read it at, in ascending order. -/
def uses (g : Graph) (id : NodeId) : List (NodeId × Nat) :=
  ((g.outgoing id).map fun e => (e.target.id, e.position)).mergeSort readsBefore

def useCount (g : Graph) (id : NodeId) : Nat := (g.outgoing id).length

def outputSource? (g : Graph) (name : String) : Option NodeId := do
  (g.operands (← g.outputs.find? name)).head?

end Graph

end CipherGraph

import CipherGraph.Graph.Basic

/-! # Building graphs

A new node takes the next id of the graph's space and reads its operands at positions
`0, 1, …`. An id is used up even when the node's name turns out to be taken.
-/

namespace CipherGraph.Graph

def create (name : String) (width : Nat) (space : IdSpace) : Except GraphError Graph :=
  if width = 0 then .error (.invalidWidth width) else .ok (blank name width space)

/-- Inputs and outputs have names of their own; other nodes have none. -/
def register (g : Graph) (id : NodeId) : Operation → Except GraphError Graph
  | .input name _ =>
    if g.inputs.contains name then .error (.duplicateInput name)
    else .ok { g with inputs := g.inputs.insert name id }
  | .output name =>
    if g.outputs.contains name then .error (.duplicateOutput name)
    else .ok { g with outputs := g.outputs.insert name id }
  | _ => .ok g

/-- Keeps ids ascending; a node of the same id gives way. -/
def placeNode (node : Node) : List Node → List Node
  | [] => [node]
  | n :: rest =>
    if node.id < n.id then node :: n :: rest
    else if node.id = n.id then node :: rest
    else n :: placeNode node rest

/-- Adds a node without edges. The bearer of its id so far is hidden. -/
def addNode (g : Graph) (node : Node) : Graph :=
  { g with
    nodes := placeNode node g.nodes
    hidden := if g.contains node.id then node.id :: g.hidden else g.hidden }

def addEdge (g : Graph) (source target : Place) (position : Nat) : Graph :=
  { g with edges := ⟨source, target, position⟩ :: g.edges }

/-- Lets `target` read the sources at ascending positions. -/
def connect (g : Graph) (target : Place) : List Place → Nat → Graph
  | [], _ => g
  | source :: rest, position =>
    connect (g.addEdge source target position) target rest (position + 1)

def makeNode (g : Graph) (op : Operation) (operands : List NodeId) :
    Allocating GraphError (NodeId × Graph) := do
  if operands.length ≠ op.arity then
    throw (.arityMismatch op.name op.arity operands.length)
  operands.forM fun id => liftM (g.require id)
  let sources := operands.map g.place
  let id ← Allocating.fresh g.space
  let named ← liftM (g.register id op)
  let grown := named.addNode ⟨id, op⟩
  return (id, grown.connect (grown.place id) sources 0)

def input (g : Graph) (name : String) (type : ValueClass) :
    Allocating GraphError (NodeId × Graph) :=
  g.makeNode (.input name type) []

def output (g : Graph) (name : String) (value : NodeId) :
    Allocating GraphError (NodeId × Graph) :=
  g.makeNode (.output name) [value]

/-- The length of a constant has to divide the graph's width. -/
def constant (g : Graph) (value : Constant) : Allocating GraphError (NodeId × Graph) := do
  if !value.fills g.width then throw (.constantLength g.width value.length)
  g.makeNode (.constant value) []

def arithmetic (g : Graph) (op : Arithmetic) (lhs rhs : NodeId) :
    Allocating GraphError (NodeId × Graph) :=
  g.makeNode (.arithmetic op) [lhs, rhs]

def negate (g : Graph) (value : NodeId) : Allocating GraphError (NodeId × Graph) :=
  g.makeNode .negate [value]

def rotateLeft (g : Graph) (value : NodeId) (steps : Nat) :
    Allocating GraphError (NodeId × Graph) :=
  g.makeNode (.rotateLeft steps) [value]

def rotateRight (g : Graph) (value : NodeId) (steps : Nat) :
    Allocating GraphError (NodeId × Graph) :=
  g.makeNode (.rotateRight steps) [value]

def encode (g : Graph) (value : NodeId) (scaleBits level : Nat) :
    Allocating GraphError (NodeId × Graph) :=
  g.makeNode (.encode scaleBits level) [value]

def aggregate (g : Graph) (op : Aggregate) (operands : List NodeId) :
    Allocating GraphError (NodeId × Graph) :=
  g.makeNode (.aggregate op) operands

/-- Adds listed nodes. Their ids have to be new, and the last id of all is refused: none comes after
it. -/
def addListed (g : Graph) : List Node → Allocating GraphError Graph
  | [] => return g
  | node :: rest => do
    if g.contains node.id then throw (.repeatedId node.id)
    let named ← liftM (g.register node.id node.op)
    if NodeId.bound ≤ node.id + 1 then throw .idOverflow
    Allocating.advance g.space (node.id + 1)
    addListed (named.addNode node) rest

/-- Adds listed edges, each a consumer, a position and an operand. -/
def addOperands (g : Graph) : List (NodeId × Nat × NodeId) → Except GraphError Graph
  | [] => .ok g
  | (consumer, position, operand) :: rest => do
    g.require consumer
    g.require operand
    addOperands (g.addEdge (g.place operand) (g.place consumer) position) rest

def checkArity (g : Graph) (node : Node) : Except GraphError Unit :=
  if (g.operands node.id).length = node.op.arity then .ok ()
  else .error (.arityMismatch node.op.name node.op.arity (g.operands node.id).length)

/-- Restores a graph from its nodes, in any order, and its edges, oldest first. The space is
moved past every id, even when the parts turn out not to fit. -/
def ofParts (name : String) (width : Nat) (nodes : List Node)
    (operands : List (NodeId × Nat × NodeId)) (space : IdSpace) : Allocating GraphError Graph := do
  let g ← liftM (create name width space)
  let g ← g.addListed (nodes.mergeSort fun a b => a.id ≤ b.id)
  let g ← liftM (g.addOperands operands)
  g.nodes.forM fun node => liftM (g.checkArity node)
  return g

end CipherGraph.Graph

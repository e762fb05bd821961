import CipherGraph.Graph.Basic

/-! # Replacing nodes

Consumers can be redirected from one node to another, and nodes that no output
depends on can be dropped. A node's own operand list is never edited in place.
-/

namespace CipherGraph.Graph

/-- The edges that move when `old` gives way to `new`: `new` itself may go on reading `old`. -/
def redirected (g : Graph) (old new : NodeId) : List Edge :=
  (g.outgoing old).filter (·.target ≠ g.place new)

/-- Lets every consumer of `old` but `new` read `new` at the same position; counts edges moved. -/
def replaceUses (g : Graph) (old new : NodeId) : Except GraphError (Nat × Graph) := do
  g.require old
  g.require new
  if old = new then return (0, g)
  let moved := g.redirected old new
  let kept := g.edges.filter fun e => !(e.source = g.place old && e.target ≠ g.place new)
  let redrawn := moved.reverse.map fun e => { e with source := g.place new }
  return (moved.length, { g with edges := redrawn ++ kept })

def edgesInto (edges : List Edge) (p : Place) : List Edge := edges.filter (·.target = p)

def edgesElsewhere (edges : List Edge) (p : Place) : List Edge := edges.filter (·.target ≠ p)

theorem length_edgesElsewhere_add (edges : List Edge) (p : Place) :
    (edgesElsewhere edges p).length + (edgesInto edges p).length = edges.length := by
  induction edges with
  | nil => rfl
  | cons e l ih =>
    by_cases h : e.target = p <;> simp [edgesElsewhere, edgesInto, h] at ih ⊢ <;> omega

/-- The places from which an edge path leads into `pending`, those included. -/
def reaching (edges : List Edge) : List Place → List Place
  | [] => []
  | p :: pending =>
    p :: reaching (edgesElsewhere edges p) ((edgesInto edges p).map (·.source) ++ pending)
termination_by pending => 2 * edges.length + pending.length
decreasing_by
  have := length_edgesElsewhere_add edges p
  simp only [List.length_append, List.length_map, List.length_cons]
  omega

/-- The places that the inputs and the outputs depend on. -/
def live (g : Graph) : List Place :=
  reaching g.edges
    (((g.outputs.values ++ g.inputs.values).filter g.contains).map g.place)

/-- Drops every node no output depends on, inputs apart; counts the nodes dropped. -/
def removeDead (g : Graph) : Nat × Graph :=
  let live := g.live
  let dead := (g.nodes.filter fun n => !live.contains (g.place n.id)).map fun n => g.place n.id
  (dead.length,
    { g with
      nodes := g.nodes.filter fun n => live.contains (g.place n.id)
      edges := g.edges.filter fun e => !dead.contains e.source && !dead.contains e.target })

/-- Moves a graph to another space, which goes on past the ids of the old one. -/
def rebind (g : Graph) (space : IdSpace) : StateM IdCounters Graph := do
  modify fun c => c.advance space (c.peek g.space)
  return { g with space }

end CipherGraph.Graph

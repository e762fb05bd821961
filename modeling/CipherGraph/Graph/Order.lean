import CipherGraph.Graph.Basic

/-! # Dependency order

Every node after its operands, and among the nodes that are ready the one with
the smallest id first.
-/

namespace CipherGraph.Graph

/-- Nodes with the number of operand edges they still wait for, ascending by id. -/
abbrev Waiting := List (NodeId × Nat)

/-- The first node that waits for nothing, and the others. -/
def takeReady : Waiting → Option (NodeId × Waiting)
  | [] => none
  | (id, 0) :: rest => some (id, rest)
  | (id, n + 1) :: rest => (takeReady rest).map fun (ready, rest) => (ready, (id, n + 1) :: rest)

theorem length_of_takeReady {w rest : Waiting} {id : NodeId} (h : takeReady w = some (id, rest)) :
    rest.length + 1 = w.length := by
  fun_induction takeReady w generalizing rest with
  | case1 => simp at h
  | case2 => simp_all
  | case3 i n w ih =>
    obtain ⟨⟨r, rest'⟩, hr, he⟩ := Option.map_eq_some_iff.1 h
    simp only [Prod.mk.injEq] at he
    obtain ⟨rfl, rfl⟩ := he
    simp [← ih hr]

/-- Every consumer in the list waits for one edge less. -/
def release (consumers : List NodeId) (w : Waiting) : Waiting :=
  w.map fun (id, n) => (id, n - consumers.count id)

def emit (g : Graph) (w : Waiting) : Except GraphError (List NodeId) :=
  match _h : takeReady w with
  | some (id, rest) => do
    return id :: (← emit g (release ((g.uses id).map (·.1)) rest))
  | none =>
    match w with
    | [] => .ok []
    | (id, _) :: _ => .error (.operandCycle id)
termination_by w.length
decreasing_by
  have := length_of_takeReady _h
  simp only [release, List.length_map]
  omega

/-- All nodes in dependency order. A cycle is reported at the smallest node left over. -/
def forwardOrder (g : Graph) : Except GraphError (List NodeId) :=
  g.emit (g.ids.map fun id => (id, (g.operands id).length))

def useCounts (g : Graph) : OrderedMap NodeId Nat := ⟨g.ids.map fun id => (id, g.useCount id)⟩

end CipherGraph.Graph

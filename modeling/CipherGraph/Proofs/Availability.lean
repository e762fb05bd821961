import CipherGraph.Proofs.Execution
import Mathlib.Algebra.BigOperators.Group.Finset.Basic

/-! # Values at hand

A value is freed after its last use, outputs apart. So an execution holds the operands of every
node that it comes to, and in the end every output.
-/

namespace CipherGraph

namespace Graph

variable {g : Graph} {id node : NodeId} {order : List NodeId}

/-- How often the nodes of a list read a node. -/
def demand (g : Graph) (order : List NodeId) (id : NodeId) : Nat :=
  (order.flatMap g.operands).count id

theorem demand_cons :
    g.demand (node :: order) id = (g.operands node).count id + g.demand order id := by
  rw [demand, List.flatMap_cons, List.count_append, demand]

theorem demand_pos (hnode : node ∈ order) (h : id ∈ g.operands node) : 0 < g.demand order id :=
  List.count_pos_iff.mpr (List.mem_flatMap.mpr ⟨node, hnode, h⟩)

theorem useCount_eq_demand (h : g.Sound) (hv : g.hidden = []) (ho : order.Perm g.ids)
    (id : NodeId) : g.useCount id = g.demand order id := by
  have hconsumers : ∀ c ∈ (g.uses id).map (·.1), c ∈ order.toFinset := by
    intro c hc
    rw [← List.count_pos_iff, count_uses h hv, List.count_pos_iff] at hc
    exact List.mem_toFinset.mpr (ho.mem_iff.mpr (h.mem_ids_of_operand hv hc))
  have hnodup : order.Nodup := ho.nodup_iff.mpr h.nodup
  calc g.useCount id = ((g.uses id).map (·.1)).length := by simp [useCount, uses]
    _ = ∑ c ∈ order.toFinset, ((g.uses id).map (·.1)).count c := by
      have hsum := Multiset.sum_count_eq_card (s := order.toFinset)
        (m := Multiset.ofList ((g.uses id).map (·.1))) (by simpa using hconsumers)
      simpa using hsum.symm
    _ = (order.map fun c => (g.operands c).count id).sum := by
      rw [List.sum_toFinset _ hnodup]
      simp only [count_uses h hv]
    _ = g.demand order id := List.count_flatMap.symm

end Graph

namespace Machine

variable {S : Scheme} {m m' : Machine S} {left left' : Remaining} {v v' : Vault}
  {id node : NodeId} {operands before after : List NodeId}

theorem find?_freeOperands {n : Nat} (h : left.find? id = some n) :
    (m.freeOperands left operands).2.find? id = some (n - operands.count id) := by
  induction operands generalizing m left n with
  | nil => exact h
  | cons operand rest ih =>
    unfold freeOperands
    by_cases hid : operand = id
    · subst hid
      have hnext : (left.insert operand (n - 1)).find? operand = some (n - 1) :=
        OrderedMap.find?_insert_self
      have hcount : n - (operand :: rest).count operand = n - 1 - rest.count operand := by
        rw [List.count_cons_self]
        omega
      rw [h, hcount]
      dsimp only
      split
      · exact ih hnext
      · exact ih hnext
    · rw [List.count_cons_of_ne hid]
      split
      · exact ih h
      · dsimp only
        split
        · exact ih (by rw [OrderedMap.find?_insert_of_ne hid, h])
        · exact ih (by rw [OrderedMap.find?_insert_of_ne hid, h])

theorem value_freeOperands {n : Nat} (h : left.find? id = some n)
    (hkeep : operands.count id < n ∨ id ∈ m.graph.outputs.values) :
    (m.freeOperands left operands).1.values.find? id = m.values.find? id := by
  induction operands generalizing m left n with
  | nil => rfl
  | cons operand rest ih =>
    unfold freeOperands
    by_cases hid : operand = id
    · subst hid
      rw [List.count_cons_self] at hkeep
      have hnext : (left.insert operand (n - 1)).find? operand = some (n - 1) :=
        OrderedMap.find?_insert_self
      rw [h]
      dsimp only
      split
      · next hfree =>
        simp only [Bool.and_eq_true, decide_eq_true_eq, Bool.not_eq_eq_eq_not, Bool.not_true,
          List.contains_eq_mem, decide_eq_false_iff_not] at hfree
        rcases hkeep with hkeep | hkeep
        · omega
        · exact absurd hkeep hfree.2
      · exact ih hnext (hkeep.imp_left (by omega))
    · rw [List.count_cons_of_ne hid] at hkeep
      split
      · exact ih h hkeep
      · dsimp only
        split
        · rw [ih (m := m.free operand) (by rw [OrderedMap.find?_insert_of_ne hid, h]) hkeep, free,
            OrderedMap.find?_erase, if_neg (Ne.symm hid)]
        · exact ih (by rw [OrderedMap.find?_insert_of_ne hid, h]) hkeep

/-- The counts say how often the nodes still to come read each value, and whatever is still read or
is an output has been kept. -/
structure Stocked (m : Machine S) (left : Remaining) (after : List NodeId) : Prop where
  left : ∀ id ∈ m.graph.ids, left.find? id = some (m.graph.demand after id)
  held : ∀ id ∈ m.graph.ids, id ∉ after →
    0 < m.graph.demand after id ∨ id ∈ m.graph.outputs.values → ∃ x, m.values.find? id = some x

theorem Stocked.operands_held (h : m.Stocked left (node :: after)) (hg : m.graph.Sound)
    (hv : m.graph.hidden = []) (ho : m.graph.Ordered (node :: after)) :
    ∀ o ∈ m.graph.operands node, ∃ x, m.values.find? o = some x := by
  intro o hread
  cases ho with
  | cons hfirst _ =>
    exact h.held o (hg.mem_ids_of_mem_operands hv hread) (hfirst o hread)
      (.inl (Graph.demand_pos List.mem_cons_self hread))

theorem Stocked.pass (h : m.Stocked left (node :: after))
    (hvisit : Runs (m.visit node) v (.ok m') v') :
    (m'.freeOperands left (m'.graph.operands node)).1.Stocked
      (m'.freeOperands left (m'.graph.operands node)).2 after := by
  have hgraph := (visit_frame hvisit).1
  have htrim := trims_freeOperands m' left (m'.graph.operands node)
  constructor
  · intro id hid
    rw [htrim.graph, hgraph] at hid ⊢
    rw [find?_freeOperands (h.left id hid), Graph.demand_cons, Nat.add_sub_cancel_left]
  · intro id hid hafter hneeded
    rw [htrim.graph, hgraph] at hid hneeded
    have hkept : ∃ x, m'.values.find? id = some x := by
      by_cases hnode : id = node
      · subst hnode
        exact visit_held hvisit
      · refine visit_grows hvisit (h.held id hid (by simp [hnode, hafter]) ?_)
        rw [Graph.demand_cons]
        exact hneeded.imp_left fun hpos => Nat.add_pos_right _ hpos
    rw [value_freeOperands (h.left id hid) ?_]
    · exact hkept
    · rw [hgraph, Graph.demand_cons]
      exact hneeded.imp_left Nat.lt_add_of_pos_right

theorem Stocked.passes (h : m.Stocked left (before ++ after))
    (hpass : Passes m left v before m' left' v') : m'.Stocked left' after := by
  induction hpass with
  | nil => exact h
  | cons hvisit _ ih => exact ih (h.pass hvisit)

end Machine

open Machine

variable {S : Scheme} {keys : Public S.kind} {g : Graph} {inputs : SchemeValuation S}
  {v v' : Vault}

theorem lookup_map_of_mem {β : Type} {ids : List NodeId} (f : NodeId → β) {id : NodeId}
    (hid : id ∈ ids) : OrderedMap.lookup id (ids.map fun k => (k, f k)) = some (f id) := by
  induction ids with
  | nil => cases hid
  | cons k ids ih =>
    rw [List.map_cons, OrderedMap.lookup]
    split
    · next hk => rw [hk]
    · next hk => exact ih ((List.mem_cons.mp hid).resolve_left (Ne.symm hk))

theorem Machine.stocked_useCounts {start : Machine S} (hgraph : start.graph = g) (hg : g.Sound)
    (hv : g.hidden = []) {order : List NodeId} (ho : g.forwardOrder = .ok order) :
    start.Stocked g.useCounts order := by
  have hperm := Graph.forwardOrder_perm ho
  constructor
  · intro id hid
    rw [hgraph] at hid ⊢
    rw [← Graph.useCount_eq_demand hg hv hperm id]
    exact lookup_map_of_mem g.useCount hid
  · intro id hid hafter
    exact absurd (hperm.mem_iff.mpr (hgraph ▸ hid)) hafter

theorem Starts.stocked {start : Machine S} (h : Starts keys g inputs start) (hg : g.Sound)
    (hv : g.hidden = []) {order : List NodeId} (ho : g.forwardOrder = .ok order) :
    start.Stocked g.useCounts order :=
  stocked_useCounts h.frame.1 hg hv ho

theorem Reaches.operands_held {node : NodeId} {m : Machine S}
    (h : Reaches keys g inputs v node m v') (hg : g.Sound) (hv : g.hidden = []) :
    ∀ o ∈ g.operands node, ∃ x, m.values.find? o = some x := by
  have hgraph := h.frame.1
  obtain ⟨start, before, after, left, hstart, ho, hpass⟩ := h
  have hordered := hg.forwardOrder_ordered hv ho
  have hlater : g.Ordered (node :: after) := hordered.of_append
  have hstocked := (hstart.stocked hg hv ho).passes hpass
  rw [← hgraph] at hg hv hlater ⊢
  exact hstocked.operands_held hg hv hlater

theorem Starts.outputs_held {start m : Machine S} (h : Starts keys g inputs start) (hg : g.Sound)
    (hv : g.hidden = []) {order : List NodeId} (ho : g.forwardOrder = .ok order)
    {left : Remaining} (hpass : Passes start g.useCounts v order m left v') {name : String}
    {id : NodeId} (hout : (name, id) ∈ g.outputs.entries) (hid : id ∈ g.ids) :
    ∃ x, m.values.find? id = some x := by
  have hgraph := hpass.frame.1.trans h.frame.1
  have hstocked : m.Stocked left [] := by
    refine Stocked.passes ?_ hpass
    rw [List.append_nil]
    exact h.stocked hg hv ho
  refine hstocked.held id (hgraph ▸ hid) List.not_mem_nil (.inr ?_)
  rw [hgraph]
  exact List.mem_map_of_mem hout

end CipherGraph

import CipherGraph.Proofs.Readiness

/-! # Freeing goes unnoticed

A run that frees nothing ends like one that frees each value after its last use: whatever is still
to be read is the same in both. What the freeing run holds in the end are the outputs and the nodes
that nobody reads.
-/

namespace CipherGraph

namespace Machine

variable {S : Scheme} {m m' k k' : Machine S} {left left' : Remaining} {v v' : Vault}
  {id node : NodeId} {operands before after : List NodeId} {g : Graph}

def runKeeping (m : Machine S) : Exec (SchemeValuation S) := do
  let order ← Exec.ofGraph m.graph.forwardOrder
  let m ← order.foldlM visit m
  match m.outputs (← get) with
  | (found, .ok ()) => return found
  | (_, .error e) => throw e

/-- The value that a visit adds, if any: an input has its value already. -/
def computed (m : Machine S) (node : NodeId) : Exec (Option (Value S)) := do
  match ← Exec.ofGraph (m.graph.op? node) with
  | .input name _ =>
    if m.values.contains node then return none
    else throw (.configuration (.unboundInput name))
  | op => return some (← m.evaluate node op)

def record (m : Machine S) (node : NodeId) : Option (Value S) → Machine S
  | none => m
  | some x => m.put node x

theorem visit_eq_record : m.visit node = do return m.record node (← m.computed node) := by
  unfold visit computed
  rw [bind_assoc]
  refine bind_congr fun op => ?_
  cases op with
  | input name type =>
    dsimp only
    split
    · rw [pure_bind]
      rfl
    · rfl
  | _ =>
    rw [bind_assoc]
    simp only [pure_bind]
    rfl

theorem runs_visit_ok : Runs (m.visit node) v (.ok m') v' ↔
    ∃ x, Runs (m.computed node) v (.ok x) v' ∧ m.record node x = m' := by
  rw [visit_eq_record, runs_bind_ok]
  constructor
  · rintro ⟨x, w, hx, hm⟩
    obtain ⟨heq, rfl⟩ := runs_pure.mp hm
    exact ⟨x, hx, (Except.ok.inj heq).symm⟩
  · rintro ⟨x, hx, rfl⟩
    exact ⟨x, v', hx, runs_pure.mpr ⟨rfl, rfl⟩⟩

theorem runs_visit_error {e : ExecError} :
    Runs (m.visit node) v (.error e) v' ↔ Runs (m.computed node) v (.error e) v' := by
  rw [visit_eq_record, runs_bind_error]
  constructor
  · rintro (h | ⟨_, _, -, h⟩)
    · exact h
    · cases (runs_pure.mp h).1
  · exact .inl

theorem record_graph {x : Option (Value S)} : (m.record node x).graph = m.graph := by
  cases x <;> rfl

theorem record_keys {x : Option (Value S)} : (m.record node x).keys = m.keys := by
  cases x <;> rfl

theorem find?_record_of_ne {x : Option (Value S)} (h : id ≠ node) :
    (m.record node x).values.find? id = m.values.find? id := by
  cases x with
  | none => rfl
  | some x => rw [record, put, OrderedMap.find?_insert_of_ne (Ne.symm h)]

theorem find?_record_congr {x : Option (Value S)} (h : k.values.find? id = m.values.find? id) :
    (k.record node x).values.find? id = (m.record node x).values.find? id := by
  cases x with
  | none => exact h
  | some x => rw [record, record, put, put, OrderedMap.find?_insert, OrderedMap.find?_insert, h]

theorem evaluate_congr (hgraph : k.graph = m.graph) (hkeys : k.keys = m.keys)
    (h : ∀ o ∈ m.graph.operands node, k.values.find? o = m.values.find? o) (op : Operation) :
    k.evaluate node op = m.evaluate node op := by
  obtain ⟨_, _, values⟩ := m
  obtain ⟨g, keys, values'⟩ := k
  dsimp only at hgraph hkeys h
  subst hgraph hkeys
  have hvalue : ∀ o ∈ g.operands node,
      value (⟨g, keys, values'⟩ : Machine S) o = value ⟨g, keys, values⟩ o := by
    intro o ho
    rw [value, value, h o ho]
  unfold evaluate
  dsimp only
  rcases hoperands : g.operands node with _ | ⟨lhs, _ | ⟨rhs, rest⟩⟩ <;>
    rw [hoperands] at hvalue
  · cases op <;> rfl
  · have hlhs := hvalue lhs List.mem_cons_self
    cases op <;> simp only [hlhs] <;> rfl
  · have hlhs := hvalue lhs List.mem_cons_self
    have hrhs := hvalue rhs (List.mem_cons_of_mem _ List.mem_cons_self)
    cases op <;> simp only [hlhs, hrhs] <;> rfl

theorem computed_congr (hgraph : k.graph = m.graph) (hkeys : k.keys = m.keys)
    (hnode : k.values.find? node = m.values.find? node)
    (h : ∀ o ∈ m.graph.operands node, k.values.find? o = m.values.find? o) :
    k.computed node = m.computed node := by
  unfold computed
  rw [hgraph]
  simp only [evaluate_congr hgraph hkeys h, OrderedMap.contains, hnode]
  rfl

theorem value_freeOperands_of_not_mem (h : id ∉ operands) :
    (m.freeOperands left operands).1.values.find? id = m.values.find? id := by
  induction operands generalizing m left with
  | nil => rfl
  | cons operand rest ih =>
    have hrest := List.not_mem_of_not_mem_cons h
    unfold freeOperands
    split
    · exact ih hrest
    · dsimp only
      split
      · rw [ih hrest, free, OrderedMap.find?_erase, if_neg (List.ne_of_not_mem_cons h)]
      · exact ih hrest

theorem value_freeOperands_of_spent {n : Nat} (h : left.find? id = some n) (hread : id ∈ operands)
    (hn : n ≤ operands.count id) (hout : id ∉ m.graph.outputs.values) :
    (m.freeOperands left operands).1.values.find? id = none := by
  induction operands generalizing m left n with
  | nil => cases hread
  | cons operand rest ih =>
    unfold freeOperands
    by_cases hid : operand = id
    · subst hid
      rw [List.count_cons_self] at hn
      have hnext : (left.insert operand (n - 1)).find? operand = some (n - 1) :=
        OrderedMap.find?_insert_self
      rw [h]
      dsimp only
      by_cases hrest : operand ∈ rest
      · split
        · exact ih hnext hrest (by omega) hout
        · exact ih hnext hrest (by omega) hout
      · have hlast : n - 1 = 0 := by
          rw [List.count_eq_zero_of_not_mem hrest] at hn
          omega
        rw [if_pos (by simp [hlast, hout]), value_freeOperands_of_not_mem hrest, free,
          OrderedMap.find?_erase, if_pos rfl]
    · have hrest := (List.mem_cons.mp hread).resolve_left (Ne.symm hid)
      rw [List.count_cons_of_ne hid] at hn
      split
      · exact ih h hrest hn hout
      · have hnext : ∀ n', (left.insert operand n').find? id = some n := fun n' => by
          rw [OrderedMap.find?_insert_of_ne hid, h]
        dsimp only
        split
        · exact ih (hnext _) hrest hn hout
        · exact ih (hnext _) hrest hn hout

/-- Two machines that agree on all that is still to be visited or read, and on the outputs. -/
structure Agrees (m k : Machine S) (after : List NodeId) : Prop where
  graph : k.graph = m.graph
  keys : k.keys = m.keys
  values : ∀ id ∈ m.graph.ids,
    id ∈ after ∨ 0 < m.graph.demand after id ∨ id ∈ m.graph.outputs.values →
      k.values.find? id = m.values.find? id

theorem Agrees.refl (m : Machine S) (after : List NodeId) : m.Agrees m after :=
  ⟨rfl, rfl, fun _ _ _ => rfl⟩

theorem Agrees.computed (h : m.Agrees k (node :: after)) (hg : m.graph.Sound)
    (hv : m.graph.hidden = []) (hnode : node ∈ m.graph.ids) :
    k.computed node = m.computed node := by
  refine computed_congr h.graph h.keys (h.values node hnode (.inl List.mem_cons_self)) ?_
  intro o hread
  exact h.values o (hg.mem_ids_of_mem_operands hv hread)
    (.inr (.inl (Graph.demand_pos List.mem_cons_self hread)))

theorem Agrees.pass (h : m.Agrees k (node :: after)) (hstocked : m.Stocked left (node :: after))
    (ho : m.graph.Ordered (node :: after)) (x : Option (Value S)) :
    ((m.record node x).freeOperands left (m.graph.operands node)).1.Agrees (k.record node x)
      after := by
  have htrim := trims_freeOperands (m.record node x) left (m.graph.operands node)
  have hgraph := htrim.graph.trans record_graph
  refine ⟨?_, ?_, ?_⟩
  · rw [hgraph, record_graph, h.graph]
  · rw [htrim.keys, record_keys, record_keys, h.keys]
  · intro id hid hneeds
    rw [hgraph] at hid hneeds
    have hkept : ((m.record node x).freeOperands left (m.graph.operands node)).1.values.find? id =
        (m.record node x).values.find? id := by
      by_cases hread : id ∈ m.graph.operands node
      · refine value_freeOperands (hstocked.left id hid) ?_
        rw [record_graph, Graph.demand_cons]
        refine (hneeds.resolve_left fun hlater => ?_).imp_left Nat.lt_add_of_pos_right
        cases ho with
        | cons hfirst _ => exact hfirst id hread (List.mem_cons_of_mem node hlater)
      · exact value_freeOperands_of_not_mem hread
    rw [hkept]
    refine find?_record_congr (h.values id hid ?_)
    rw [Graph.demand_cons]
    exact hneeds.imp (List.mem_cons_of_mem node) (.imp_left (Nat.add_pos_right _))

theorem Agrees.passes (h : m.Agrees k (before ++ after)) (hg : m.graph.Sound)
    (hv : m.graph.hidden = []) (ho : m.graph.Ordered (before ++ after))
    (hids : ∀ id ∈ before, id ∈ m.graph.ids) (hstocked : m.Stocked left (before ++ after))
    (hpass : Passes m left v before m' left' v') :
    ∃ k', Runs (before.foldlM visit k) v (.ok k') v' ∧ m'.Agrees k' after := by
  induction hpass generalizing k with
  | nil => exact ⟨k, runs_pure.mpr ⟨rfl, rfl⟩, h⟩
  | @cons m m₁ m' left left' v v₁ v' node before hvisit hrest ih =>
    have hcomputed := h.computed hg hv (hids node List.mem_cons_self)
    have hnext := hstocked.pass hvisit
    obtain ⟨x, hx, rfl⟩ := runs_visit_ok.mp hvisit
    have hgraph : ((m.record node x).freeOperands left
        ((m.record node x).graph.operands node)).1.graph = m.graph :=
      (trims_freeOperands ..).graph.trans record_graph
    have hagrees := h.pass hstocked ho x
    rw [← record_graph (x := x)] at hagrees
    cases ho with
    | cons _ ho =>
      obtain ⟨k', hk', hagrees⟩ := ih hagrees (hgraph ▸ hg) (hgraph ▸ hv) (hgraph ▸ ho)
        (fun id hid => hgraph ▸ hids id (List.mem_cons_of_mem node hid)) hnext
      rw [← hcomputed] at hx
      refine ⟨k', ?_, hagrees⟩
      rw [List.foldlM_cons]
      exact runs_bind_ok.mpr ⟨_, _, runs_visit_ok.mpr ⟨x, hx, rfl⟩, hk'⟩

theorem collect_congr {entries : List (String × NodeId)} (found : SchemeValuation S)
    (h : ∀ e ∈ entries, k.values.find? e.2 = m.values.find? e.2) :
    k.collect v entries found = m.collect v entries found := by
  induction entries generalizing found with
  | nil => rfl
  | cons e entries ih =>
    obtain ⟨name, id⟩ := e
    have hrest := fun found => ih found fun e he => h e (List.mem_cons_of_mem _ he)
    unfold collect
    rw [h (name, id) List.mem_cons_self]
    simp only [hrest]

theorem Agrees.outputs (h : m.Agrees k []) (hnamed : m.graph.Named) :
    k.outputs v = m.outputs v := by
  unfold Machine.outputs
  rw [h.graph]
  refine collect_congr ∅ fun e he => ?_
  exact h.values e.2 (Graph.mem_ids_of_mem_nodes (hnamed.outputs e.1 e.2 he))
    (.inr (.inr (List.mem_map_of_mem he)))

/-- The nodes visited whose values are held are those that are still read, the outputs, and the
nodes without uses. The uses of the nodes not visited are all still to come. -/
structure Sparse (m : Machine S) (after : List NodeId) : Prop where
  known : ∀ id x, m.values.find? id = some x → id ∈ m.graph.ids
  demand_le : ∀ id, m.graph.demand after id ≤ m.graph.useCount id
  demand_eq : ∀ id ∈ after, m.graph.demand after id = m.graph.useCount id
  held : ∀ id ∈ m.graph.ids, id ∉ after → ((∃ x, m.values.find? id = some x) ↔
    0 < m.graph.demand after id ∨ id ∈ m.graph.outputs.values ∨ m.graph.useCount id = 0)

theorem Sparse.pass (h : m.Sparse (node :: after)) (hstocked : m.Stocked left (node :: after))
    (ho : m.graph.Ordered (node :: after)) (hnode : node ∈ m.graph.ids)
    (hvisit : Runs (m.visit node) v (.ok m') v') :
    (m'.freeOperands left (m'.graph.operands node)).1.Sparse after := by
  have hheld := visit_held hvisit
  obtain ⟨x, -, rfl⟩ := runs_visit_ok.mp hvisit
  have htrim := trims_freeOperands (m.record node x) left ((m.record node x).graph.operands node)
  have hgraph := htrim.graph.trans record_graph
  have hfirst : ∀ o ∈ m.graph.operands node, o ∉ node :: after := by
    cases ho with
    | cons hfirst _ => exact hfirst
  constructor
  · intro id y hy
    rw [hgraph]
    by_cases hid : id = node
    · exact hid ▸ hnode
    · have hy := htrim.values id y hy
      rw [find?_record_of_ne hid] at hy
      exact h.known id y hy
  · intro id
    rw [hgraph]
    have hle := h.demand_le id
    rw [Graph.demand_cons] at hle
    omega
  · intro id hid
    rw [hgraph]
    have heq := h.demand_eq id (List.mem_cons_of_mem node hid)
    have hunread : id ∉ m.graph.operands node := fun hread =>
      hfirst id hread (List.mem_cons_of_mem node hid)
    rwa [Graph.demand_cons, List.count_eq_zero_of_not_mem hunread, Nat.zero_add] at heq
  · intro id hid hafter
    rw [hgraph] at hid ⊢
    rw [record_graph]
    by_cases hread : id ∈ m.graph.operands node
    · have hnot : id ∉ node :: after := hfirst id hread
      have hpos : 0 < m.graph.demand (node :: after) id :=
        Graph.demand_pos List.mem_cons_self hread
      have huses : m.graph.useCount id ≠ 0 := by
        have := h.demand_le id
        omega
      obtain ⟨y, hy⟩ := (h.held id hid hnot).mpr (.inl hpos)
      by_cases hneeded : 0 < m.graph.demand after id ∨ id ∈ m.graph.outputs.values
      · rw [value_freeOperands (hstocked.left id hid), find?_record_of_ne
          (List.ne_of_not_mem_cons hnot)]
        · exact iff_of_true ⟨y, hy⟩ (hneeded.imp_right .inl)
        · rw [record_graph, Graph.demand_cons]
          exact hneeded.imp_left Nat.lt_add_of_pos_right
      · obtain ⟨hdemand, hout⟩ := not_or.mp hneeded
        have hdemand := Nat.eq_zero_of_not_pos hdemand
        rw [value_freeOperands_of_spent (hstocked.left id hid) hread
          (by rw [Graph.demand_cons, hdemand, Nat.add_zero]) (by rwa [record_graph])]
        simp [hdemand, hout, huses]
    · rw [value_freeOperands_of_not_mem hread]
      have hdemand : m.graph.demand (node :: after) id = m.graph.demand after id := by
        rw [Graph.demand_cons, List.count_eq_zero_of_not_mem hread, Nat.zero_add]
      by_cases heq : id = node
      · subst heq
        have hall := h.demand_eq id List.mem_cons_self
        rw [hdemand] at hall
        refine iff_of_true hheld ?_
        omega
      · rw [find?_record_of_ne heq, ← hdemand]
        exact h.held id hid (List.not_mem_cons_of_ne_of_not_mem heq hafter)

theorem Sparse.passes (h : m.Sparse (before ++ after)) (ho : m.graph.Ordered (before ++ after))
    (hids : ∀ id ∈ before, id ∈ m.graph.ids) (hstocked : m.Stocked left (before ++ after))
    (hpass : Passes m left v before m' left' v') : m'.Sparse after := by
  induction hpass with
  | nil => exact h
  | @cons m m₁ m' left left' v v₁ v' node before hvisit _ ih =>
    have hgraph : (m₁.freeOperands left (m₁.graph.operands node)).1.graph = m.graph :=
      (trims_freeOperands ..).graph.trans (visit_frame hvisit).1
    have hnext := h.pass hstocked ho (hids node List.mem_cons_self) hvisit
    cases ho with
    | cons _ ho =>
      exact ih hnext (hgraph ▸ ho)
        (fun id hid => hgraph ▸ hids id (List.mem_cons_of_mem node hid)) (hstocked.pass hvisit)

end Machine

open Machine

variable {S : Scheme} {g : Graph} {start : Machine S} {v v' : Vault}

theorem agrees_of_passes (hg : g.Sound) (hv : g.hidden = []) (hgraph : start.graph = g)
    {before after : List NodeId} (ho : g.forwardOrder = .ok (before ++ after)) {m : Machine S}
    {left : Remaining} (hpass : Passes start g.useCounts v before m left v') :
    ∃ k, Runs (before.foldlM visit start) v (.ok k) v' ∧ m.Agrees k after := by
  have hordered := hg.forwardOrder_ordered hv ho
  have hstocked := stocked_useCounts hgraph hg hv ho
  have hperm := Graph.forwardOrder_perm ho
  subst hgraph
  exact (Agrees.refl start _).passes hg hv hordered
    (fun id hid => hperm.mem_iff.mp (List.mem_append_left _ hid)) hstocked hpass

theorem operands_kept (hg : g.Sound) (hv : g.hidden = []) (hgraph : start.graph = g)
    {before after : List NodeId} {node : NodeId}
    (ho : g.forwardOrder = .ok (before ++ node :: after))
    {m : Machine S} {left : Remaining} (hpass : Passes start g.useCounts v before m left v') :
    ∃ k, Runs (before.foldlM visit start) v (.ok k) v' ∧
      ∀ o ∈ g.operands node, ∃ x, m.values.find? o = some x ∧ k.values.find? o = some x := by
  obtain ⟨k, hk, hagrees⟩ := agrees_of_passes hg hv hgraph ho hpass
  refine ⟨k, hk, fun o hread => ?_⟩
  have hordered : g.Ordered (node :: after) := (hg.forwardOrder_ordered hv ho).of_append
  have hstocked := (stocked_useCounts hgraph hg hv ho).passes hpass
  rw [← hgraph, ← hpass.frame.1] at hg hv hordered hread
  obtain ⟨x, hx⟩ := hstocked.operands_held hg hv hordered o hread
  refine ⟨x, hx, ?_⟩
  rw [hagrees.values o (hg.mem_ids_of_mem_operands hv hread)
    (.inr (.inl (Graph.demand_pos List.mem_cons_self hread))), hx]

theorem runs_runKeeping (hg : g.Reachable) (hv : g.hidden = []) (hgraph : start.graph = g) :
    Runs start.runKeeping v (start.run.run v).1.2 (start.run.run v).2 := by
  subst hgraph
  have hsound := hg.sound
  unfold runKeeping
  cases ho : start.graph.forwardOrder with
  | error e =>
    have hrun : start.run.run v = ((start, .error (.graph e)), v) := by
      unfold Machine.run
      rw [ho]
      rfl
    rw [hrun]
    exact runs_throw_bind.mpr ⟨rfl, rfl⟩
  | ok order =>
    rw [runs_bind_of_ok (runs_ofGraph_ok.mpr ⟨rfl, rfl⟩)]
    rcases hall : (start.visitAll start.graph.useCounts order).run v with ⟨⟨m, e | _⟩, v'⟩
    · rw [run_of_failure ho hall]
      obtain ⟨before, node, after, left, v₁, rfl, hpass, he⟩ := visitAll_error.mp hall
      obtain ⟨k, hk, hagrees⟩ := agrees_of_passes hsound hv rfl ho hpass
      have hnode : node ∈ start.graph.ids :=
        (Graph.forwardOrder_perm ho).mem_iff.mp (List.mem_append_right _ List.mem_cons_self)
      rw [← hpass.frame.1] at hsound hv hnode
      rw [runs_visit_error, ← hagrees.computed hsound hv hnode, ← runs_visit_error] at he
      refine runs_bind_error.mpr (.inl ?_)
      rw [List.foldlM_append]
      refine runs_bind_error.mpr (.inr ⟨k, v₁, hk, ?_⟩)
      rw [List.foldlM_cons]
      exact runs_bind_error.mpr (.inl he)
    · rw [run_of_visited ho hall]
      obtain ⟨left, hpass⟩ := visitAll_ok.mp hall
      rw [← List.append_nil order] at ho
      obtain ⟨k, hk, hagrees⟩ := agrees_of_passes hsound hv rfl ho hpass
      rw [runs_bind_of_ok hk, runs_bind_of_ok (runs_get.mpr ⟨rfl, rfl⟩),
        hagrees.outputs (hpass.frame.1 ▸ hg.named hv)]
      rcases m.outputs v' with ⟨found, e | _⟩
      · exact runs_throw.mpr ⟨rfl, rfl⟩
      · exact runs_pure.mpr ⟨rfl, rfl⟩

/-- Only inputs have values. -/
def Machine.Primed (m : Machine S) : Prop :=
  ∀ id x, m.values.find? id = some x → id ∈ m.graph.inputs.values

theorem Starts.primed {keys : Public S.kind} {inputs : SchemeValuation S}
    (h : Starts keys g inputs start) : start.Primed := by
  refine bindAll_induct (P := Primed) h.bound (by simp [Primed]) ?_
  intro m node name x _ hm hnode _
  exact OrderedMap.forall_find?_insert (List.mem_map_of_mem (OrderedMap.mem_of_lookup hnode)) hm

theorem Machine.Primed.sparse (h : start.Primed) (hg : start.graph.Reachable)
    (hv : start.graph.hidden = []) {order : List NodeId}
    (ho : start.graph.forwardOrder = .ok order) : start.Sparse order := by
  have hperm := Graph.forwardOrder_perm ho
  have hdemand := Graph.useCount_eq_demand hg.sound hv hperm
  refine ⟨fun id x hx => ?_, fun id => (hdemand id).ge, fun id _ => (hdemand id).symm,
    fun id hid hafter => absurd (hperm.mem_iff.mpr hid) hafter⟩
  obtain ⟨⟨name, id⟩, hentry, rfl⟩ := List.mem_map.mp (h id x hx)
  obtain ⟨type, hnode⟩ := (hg.named hv).inputs name id hentry
  exact Graph.mem_ids_of_mem_nodes hnode

theorem held_after_run (hg : g.Reachable) (hv : g.hidden = []) (hgraph : start.graph = g)
    (hstart : start.Primed) {m : Machine S} {out : SchemeValuation S}
    (h : start.run.run v = ((m, .ok out), v')) (id : NodeId) :
    (∃ x, m.values.find? id = some x) ↔
      id ∈ g.outputs.values ∨ (id ∈ g.ids ∧ g.useCount id = 0) := by
  subst hgraph
  cases ho : start.graph.forwardOrder with
  | error e =>
    unfold Machine.run at h
    rw [ho] at h
    cases h
  | ok order =>
    rcases hall : (start.visitAll start.graph.useCounts order).run v with ⟨⟨m', e | _⟩, v₁⟩
    · rw [run_of_failure ho hall] at h
      cases h
    · rw [run_of_visited ho hall, Prod.mk.injEq, Prod.mk.injEq] at h
      obtain ⟨⟨rfl, -⟩, rfl⟩ := h
      obtain ⟨left, hpass⟩ := visitAll_ok.mp hall
      have hperm := Graph.forwardOrder_perm ho
      have hordered := hg.sound.forwardOrder_ordered hv ho
      have hstocked := stocked_useCounts rfl hg.sound hv ho
      have hsparse := hstart.sparse hg hv ho
      rw [← List.append_nil order] at hordered hstocked hsparse
      have hfinal := hsparse.passes hordered (fun id hid => hperm.mem_iff.mp hid) hstocked hpass
      have hout : id ∈ start.graph.outputs.values → id ∈ start.graph.ids := by
        intro hout
        obtain ⟨⟨name, id⟩, hentry, rfl⟩ := List.mem_map.mp hout
        exact Graph.mem_ids_of_mem_nodes ((hg.named hv).outputs name id hentry)
      rw [← hpass.frame.1] at hout ⊢
      by_cases hid : id ∈ m'.graph.ids
      · rw [hfinal.held id hid List.not_mem_nil]
        simp [Graph.demand, hid]
      · refine iff_of_false ?_ ?_
        · rintro ⟨x, hx⟩
          exact hid (hfinal.known id x hx)
        · rintro (h | h)
          · exact hid (hout h)
          · exact hid h.1

/-- Where no id was handed out twice, a run has the result of a run that frees nothing, the operands
of every node that it comes to are at hand and the same as there, and what has a value after it are
the outputs and the nodes that nobody reads. -/
theorem freeing_unnoticed (hg : g.Reachable) (hv : g.hidden = []) (hgraph : start.graph = g)
    (hstart : start.Primed) (v : Vault) :
    Runs start.runKeeping v (start.run.run v).1.2 (start.run.run v).2 ∧
      (∀ before node after m left v', g.forwardOrder = .ok (before ++ node :: after) →
        Passes start g.useCounts v before m left v' →
          ∃ k, Runs (before.foldlM visit start) v (.ok k) v' ∧
            ∀ o ∈ g.operands node, ∃ x, m.values.find? o = some x ∧ k.values.find? o = some x) ∧
      ∀ m out v', start.run.run v = ((m, .ok out), v') → ∀ id,
        (∃ x, m.values.find? id = some x) ↔
          id ∈ g.outputs.values ∨ (id ∈ g.ids ∧ g.useCount id = 0) :=
  ⟨runs_runKeeping hg hv hgraph,
    fun _ _ _ _ _ _ ho hpass => operands_kept hg.sound hv hgraph ho hpass,
    fun _ _ _ h id => held_after_run hg hv hgraph hstart h id⟩

def boundSixAndNine : Machine .bitwise :=
  ⟨gateDifference.graph, gateKeys,
    ⟨[(0, .cipher (Gates.Ciphertext.mk 0 0 0)), (1, .raw [(9 : UInt8)])]⟩⟩

/-- The difference is left, and nothing else. -/
theorem freeing_unnoticed_gateDifference :
    ∃ m out v', boundSixAndNine.run.run vaultOfSix = ((m, .ok out), v') ∧
      Runs boundSixAndNine.runKeeping vaultOfSix (.ok out) v' ∧
        ∀ id, (∃ x, m.values.find? id = some x) ↔ id = 3 := by
  have hstart : Starts gateKeys gateDifference.graph sixAndNine boundSixAndNine :=
    ⟨by decide, rfl⟩
  have hrun : boundSixAndNine.run.run vaultOfSix =
      ((⟨gateDifference.graph, gateKeys, ⟨[(3, .cipher (Gates.Ciphertext.mk 0 1 0))]⟩⟩,
        .ok ⟨[("z", .cipher (Gates.Ciphertext.mk 0 1 0))]⟩),
          ⟨[⟨2, [(1, ⟨0, 3⟩), (0, ⟨0, 6⟩)], 0, 0⟩]⟩) := by
    cbv
  obtain ⟨hkeeping, -, hheld⟩ := freeing_unnoticed
    (accepted_gateDifference.reachable List.mem_cons_self) rfl rfl hstart.primed vaultOfSix
  rw [hrun] at hkeeping
  refine ⟨_, _, _, hrun, hkeeping, fun id => (hheld _ _ _ hrun id).trans ?_⟩
  have hunread : ∀ k ∈ gateDifference.graph.ids, gateDifference.graph.useCount k = 0 → k = 3 := by
    decide
  constructor
  · rintro (h | h)
    · exact List.mem_singleton.mp h
    · exact hunread id h.1 h.2
  · rintro rfl
    exact .inl List.mem_cons_self

/-- Ids that were handed out twice are freed too early: a value is missing that a run without
freeing still has. -/
theorem freeing_noticed_reusedInput :
    ∃ start : Machine .bitwise, Starts gateKeys reusedInput threeFiveFour start ∧
      reusedInput.Reachable ∧
      (∀ n ∈ reusedInput.nodes, (reusedInput.operands n.id).length = n.op.arity) ∧
      (∃ order, reusedInput.forwardOrder = .ok order) ∧
      (start.run.run .empty).1.2 = .error (.absent (.nodeValue 0)) ∧
      Runs start.runKeeping .empty
        (.ok ⟨[("u", .raw [(252 : UInt8)]), ("v", .raw [(252 : UInt8)])]⟩) .empty := by
  refine ⟨_, ⟨⟨?_, ?_⟩, rfl⟩, assembled_reusedInput.reachable,
    assembled_reusedInput.reachable.sound.arity, ⟨[0, 1, 2, 3, 4, 5], ?_⟩, ?_, ?_⟩
  · decide
  · decide
  · with_unfolding_all rfl
  · with_unfolding_all rfl
  · unfold Runs
    with_unfolding_all rfl

end CipherGraph

import CipherGraph.Graph.Replacement
import CipherGraph.Proofs.Growth

/-! # Live nodes

What is live is closed under operands, so a node that stays keeps all its operands and its whole
operand list.
-/

namespace CipherGraph.Graph

theorem subset_reaching (edges : List Edge) (pending : List Place) :
    ∀ p ∈ pending, p ∈ reaching edges pending := by
  fun_induction reaching edges pending with
  | case1 => simp
  | case2 edges p pending ih =>
    intro q hq
    rcases List.mem_cons.mp hq with rfl | hq
    · exact List.mem_cons_self
    · exact List.mem_cons_of_mem _ (ih q (List.mem_append_right _ hq))

theorem source_mem_reaching {edges : List Edge} {pending : List Place} {e : Edge}
    (he : e ∈ edges) (ht : e.target ∈ reaching edges pending) :
    e.source ∈ reaching edges pending := by
  fun_induction reaching edges pending with
  | case1 => cases ht
  | case2 edges p pending ih =>
    by_cases hp : e.target = p
    · refine List.mem_cons_of_mem _ (subset_reaching _ _ _ (List.mem_append_left _ ?_))
      exact List.mem_map_of_mem (List.mem_filter.mpr ⟨he, by simpa using hp⟩)
    · refine List.mem_cons_of_mem _ (ih (List.mem_filter.mpr ⟨he, by simpa using hp⟩) ?_)
      exact (List.mem_cons.mp ht).resolve_left hp

theorem mem_pending_or_source {edges : List Edge} {pending : List Place} {p : Place}
    (h : p ∈ reaching edges pending) : p ∈ pending ∨ ∃ e ∈ edges, e.source = p := by
  fun_induction reaching edges pending with
  | case1 => cases h
  | case2 edges q pending ih =>
    rcases List.mem_cons.mp h with rfl | h
    · exact .inl List.mem_cons_self
    · rcases ih h with h | ⟨e, he, hsource⟩
      · rcases List.mem_append.mp h with h | h
        · obtain ⟨e, he, hsource⟩ := List.mem_map.mp h
          exact .inr ⟨e, (List.mem_filter.mp he).1, hsource⟩
        · exact .inl (List.mem_cons_of_mem _ h)
      · exact .inr ⟨e, (List.mem_filter.mp he).1, hsource⟩

/-- What is closed under operands holds all that is reached if it holds the places to start from. -/
theorem reaching_subset {edges : List Edge} {pending : List Place} {held : Place → Prop}
    (hpending : ∀ p ∈ pending, held p) (hclosed : ∀ e ∈ edges, held e.target → held e.source) :
    ∀ p ∈ reaching edges pending, held p := by
  fun_induction reaching edges pending with
  | case1 => exact hpending
  | case2 edges p pending ih =>
    obtain ⟨hp, hpending⟩ := List.forall_mem_cons.mp hpending
    refine List.forall_mem_cons.mpr ⟨hp, ih (fun q hq => ?_) fun e he =>
      hclosed e (List.mem_filter.mp he).1⟩
    rcases List.mem_append.mp hq with hq | hq
    · obtain ⟨e, he, rfl⟩ := List.mem_map.mp hq
      obtain ⟨he, htarget⟩ := List.mem_filter.mp he
      exact hclosed e he (of_decide_eq_true htarget ▸ hp)
    · exact hpending q hq

variable {g : Graph}

theorem source_mem_live {e : Edge} (he : e ∈ g.edges) (ht : e.target ∈ g.live) :
    e.source ∈ g.live := source_mem_reaching he ht

theorem mem_nodes_removeDead {n : Node} :
    n ∈ g.removeDead.2.nodes ↔ n ∈ g.nodes ∧ g.place n.id ∈ g.live := by
  simp [removeDead]

theorem ids_removeDead_sublist : g.removeDead.2.ids.Sublist g.ids :=
  List.filter_sublist.map _

/-- The places of the nodes that `removeDead` drops. -/
def dead (g : Graph) : List Place :=
  (g.nodes.filter fun n => !g.live.contains (g.place n.id)).map fun n => g.place n.id

theorem mem_dead {p : Place} : p ∈ g.dead ↔ (∃ id ∈ g.ids, p = g.place id) ∧ p ∉ g.live := by
  simp only [dead, List.mem_map, List.mem_filter, Bool.not_eq_eq_eq_not, Bool.not_true, ids,
    List.contains_eq_mem, decide_eq_false_iff_not]
  constructor
  · rintro ⟨n, ⟨hn, hl⟩, rfl⟩
    exact ⟨⟨n.id, ⟨n, hn, rfl⟩, rfl⟩, hl⟩
  · rintro ⟨⟨_, ⟨n, hn, rfl⟩, rfl⟩, hl⟩
    exact ⟨n, ⟨hn, hl⟩, rfl⟩

theorem mem_edges_removeDead {e : Edge} :
    e ∈ g.removeDead.2.edges ↔ e ∈ g.edges ∧ e.source ∉ g.dead ∧ e.target ∉ g.dead := by
  change e ∈ g.edges.filter (fun e => !g.dead.contains e.source && !g.dead.contains e.target) ↔ _
  simp

theorem incoming_removeDead {id : NodeId} (h : g.place id ∈ g.live) :
    g.removeDead.2.incoming id = g.incoming id := by
  change (g.edges.filter fun e => !g.dead.contains e.source && !g.dead.contains e.target).filter
    (·.target = g.place id) = _
  rw [List.filter_filter, incoming]
  refine List.filter_congr ?_
  intro e he
  by_cases ht : e.target = g.place id
  · have hsource : e.source ∉ g.dead := fun hd => (mem_dead.mp hd).2 (source_mem_live he (ht ▸ h))
    have htarget : e.target ∉ g.dead := fun hd => (mem_dead.mp hd).2 (ht ▸ h)
    simp [hsource, htarget]
  · simp [ht]

theorem operands_removeDead {id : NodeId} (h : g.place id ∈ g.live) :
    g.removeDead.2.operands id = g.operands id := by
  rw [operands_eq, operands_eq, incoming_removeDead h]

theorem output_mem_live {name : String} {id : NodeId} (h : (name, id) ∈ g.outputs.entries)
    (hid : id ∈ g.ids) : g.place id ∈ g.live := by
  refine subset_reaching _ _ _ (List.mem_map_of_mem (List.mem_filter.mpr ⟨?_, ?_⟩))
  · exact List.mem_append_left _ (List.mem_map.mpr ⟨_, h, rfl⟩)
  · exact contains_iff.mpr hid

theorem input_mem_live {name : String} {id : NodeId} (h : (name, id) ∈ g.inputs.entries)
    (hid : id ∈ g.ids) : g.place id ∈ g.live := by
  refine subset_reaching _ _ _ (List.mem_map_of_mem (List.mem_filter.mpr ⟨?_, ?_⟩))
  · exact List.mem_append_right _ (List.mem_map.mpr ⟨_, h, rfl⟩)
  · exact contains_iff.mpr hid

theorem contains_removeDead {id : NodeId} :
    g.removeDead.2.contains id = true ↔ g.contains id = true ∧ g.place id ∈ g.live := by
  simp only [contains_iff, ids, List.mem_map, mem_nodes_removeDead]
  constructor
  · rintro ⟨n, ⟨hn, hlive⟩, rfl⟩
    exact ⟨⟨n, hn, rfl⟩, hlive⟩
  · rintro ⟨⟨n, hn, rfl⟩, hlive⟩
    exact ⟨n, ⟨hn, hlive⟩, rfl⟩

theorem live_removeDead_subset : ∀ p ∈ g.removeDead.2.live, p ∈ g.live := by
  refine reaching_subset (fun p hp => ?_) fun e he => source_mem_live (mem_edges_removeDead.mp he).1
  obtain ⟨id, hid, rfl⟩ := List.mem_map.mp hp
  exact (contains_removeDead.mp (List.mem_filter.mp hid).2).2

theorem live_subset_removeDead : ∀ p ∈ g.live, p ∈ g.removeDead.2.live := by
  refine reaching_subset (fun p hp => ?_) fun e he htarget => ?_
  · have hlive := subset_reaching g.edges _ p hp
    obtain ⟨id, hid, rfl⟩ := List.mem_map.mp hp
    obtain ⟨hdeclared, hid⟩ := List.mem_filter.mp hid
    exact subset_reaching _ _ _ (List.mem_map.mpr
      ⟨id, List.mem_filter.mpr ⟨hdeclared, contains_removeDead.mpr ⟨hid, hlive⟩⟩, rfl⟩)
  · have htarget' := live_removeDead_subset _ htarget
    have hkept : e ∈ g.removeDead.2.edges := mem_edges_removeDead.mpr
      ⟨he, fun hd => (mem_dead.mp hd).2 (source_mem_live he htarget'),
        fun hd => (mem_dead.mp hd).2 htarget'⟩
    exact source_mem_live hkept htarget

theorem removeDead_of_live (h : ∀ n ∈ g.nodes, g.place n.id ∈ g.live) :
    g.removeDead = (0, g) := by
  have hnodes : (g.nodes.filter fun n => g.live.contains (g.place n.id)) = g.nodes :=
    List.filter_eq_self.mpr fun n hn => List.contains_iff_mem.mpr (h n hn)
  have hdead : g.dead = [] := by
    rw [dead, List.map_eq_nil_iff, List.filter_eq_nil_iff]
    intro n hn
    simp [h n hn]
  change (g.dead.length, { g with
    nodes := g.nodes.filter fun n => g.live.contains (g.place n.id)
    edges := g.edges.filter fun e => !g.dead.contains e.source && !g.dead.contains e.target }) = _
  rw [hdead, hnodes]
  simp

theorem removeDead_removeDead (g : Graph) : g.removeDead.2.removeDead = (0, g.removeDead.2) :=
  removeDead_of_live fun _ hn => live_subset_removeDead _ (mem_nodes_removeDead.mp hn).2

end CipherGraph.Graph

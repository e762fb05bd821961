import CipherGraph.Proofs.GroupIds
import CipherGraph.Proofs.Records

/-! # Integrity of graphs

Nodes, edges, tables of names and the counter of ids are kept side by side and changed by different
calls. In whatever order these come, and whether they succeed or fail, the four agree.
-/

namespace CipherGraph

open IdCounters (Later)

variable {c c' : IdCounters}

namespace Graph

variable {g g' : Graph}

/-- Who reads whom: a consumer, the position at which it reads, and the operand. -/
def reads (g : Graph) : List (NodeId × Nat × NodeId) :=
  g.edges.map fun e => (e.target.id, e.position, e.source.id)

/-- What is kept of a graph agrees with itself and with the counter of its space. -/
structure Intact (g : Graph) (c : IdCounters) : Prop where
  /-- No two nodes have an id in common, and all are below the next. -/
  ascending : g.ids.Pairwise (· < ·)
  below : ∀ id ∈ g.ids, id < c.peek g.space
  visible : g.hidden = []
  found : ∀ n ∈ g.nodes, g.node? n.id = some n
  /-- The tables list the inputs and the outputs in the order of their ids, under their names. -/
  inputs : g.inputs.entries = inputsOf g.nodes
  outputs : g.outputs.entries = outputsOf g.nodes
  inputNames : g.inputs.keys.Nodup
  outputNames : g.outputs.keys.Nodup
  /-- Nodes have as many operands as they take, and these are nodes. -/
  operands_mem : ∀ id, ∀ o ∈ g.operands id, o ∈ g.ids
  arity : ∀ n ∈ g.nodes, (g.operands n.id).length = n.op.arity
  /-- Both ends of a reading are nodes, and each end sees it, in order. -/
  reads_mem : ∀ t ∈ g.reads, t.1 ∈ g.ids ∧ t.2.2 ∈ g.ids
  operands : ∀ id, ∃ l : List (Nat × NodeId), l.Perm ((g.reads.filter (·.1 = id)).map (·.2)) ∧
    l.Pairwise (·.1 ≤ ·.1) ∧ g.operands id = l.map (·.2)
  uses : ∀ id, (g.uses id).Perm ((g.reads.filter (·.2.2 = id)).map fun t => (t.1, t.2.1)) ∧
    (g.uses id).Pairwise fun a b => readsBefore a b = true
  useCount : ∀ id, g.useCount id = (g.uses id).length

theorem Intact.later (h : g.Intact c) (hc : Later c c') : g.Intact c' :=
  { h with below := fun id hid => Nat.lt_of_lt_of_le (h.below id hid) (hc.peek _) }

section Readings

variable (h : g.Sound) (hv : g.hidden = [])

include h hv

theorem Sound.target_eq_place_iff {e : Edge} (he : e ∈ g.edges) {id : NodeId} :
    e.target = g.place id ↔ e.target.id = id := by
  constructor
  · intro heq
    rw [heq, place]
  · rintro rfl
    exact ((mem_places_of_visible hv).mp (h.targets e he)).2

theorem Sound.incoming_eq (id : NodeId) : g.incoming id = g.edges.filter (·.target.id = id) :=
  List.filter_congr fun e he => by simp [h.target_eq_place_iff hv he]

theorem Sound.outgoing_eq (id : NodeId) : g.outgoing id = g.edges.filter (·.source.id = id) :=
  List.filter_congr fun e he => by simp [h.source_eq_place_iff hv he]

theorem Sound.reads_mem {t : NodeId × Nat × NodeId} (ht : t ∈ g.reads) :
    t.1 ∈ g.ids ∧ t.2.2 ∈ g.ids := by
  obtain ⟨e, he, rfl⟩ := List.mem_map.mp ht
  exact ⟨((mem_places_of_visible hv).mp (h.targets e he)).1,
    ((mem_places_of_visible hv).mp (h.sources e he)).1⟩

theorem Sound.operands_of_reads (id : NodeId) : ∃ l : List (Nat × NodeId),
    l.Perm ((g.reads.filter (·.1 = id)).map (·.2)) ∧ l.Pairwise (·.1 ≤ ·.1) ∧
      g.operands id = l.map (·.2) := by
  refine ⟨(byPosition (g.incoming id)).map fun e => (e.position, e.source.id), ?_, ?_, ?_⟩
  · rw [h.incoming_eq hv, reads, List.filter_map, List.map_map]
    exact (byPosition_perm _).map _
  · exact List.pairwise_map.mpr (byPosition_pairwise _)
  · rw [operands_eq, List.map_map]
    rfl

omit h hv in
theorem readsBefore_trans (x y z : NodeId × Nat) (hxy : readsBefore x y = true)
    (hyz : readsBefore y z = true) : readsBefore x z = true := by
  simp only [readsBefore, Bool.or_eq_true, Bool.and_eq_true, decide_eq_true_eq] at *
  grind

omit h hv in
theorem readsBefore_total (x y : NodeId × Nat) : (readsBefore x y || readsBefore y x) = true := by
  simp only [readsBefore, Bool.or_eq_true, Bool.and_eq_true, decide_eq_true_eq]
  grind

theorem Sound.uses_of_reads (id : NodeId) :
    (g.uses id).Perm ((g.reads.filter (·.2.2 = id)).map fun t => (t.1, t.2.1)) ∧
      (g.uses id).Pairwise fun a b => readsBefore a b = true := by
  refine ⟨(List.mergeSort_perm _ _).trans ?_,
    List.pairwise_mergeSort readsBefore_trans readsBefore_total _⟩
  rw [h.outgoing_eq hv, reads, List.filter_map, List.map_map]
  exact .refl _

end Readings

theorem useCount_eq (g : Graph) (id : NodeId) : g.useCount id = (g.uses id).length := by
  rw [useCount, uses, List.length_mergeSort, List.length_map]

/-- No node is hidden, and the tables list the inputs and the outputs in order. -/
structure Listed (g : Graph) : Prop where
  visible : g.hidden = []
  inputs : g.inputs.entries = inputsOf g.nodes
  outputs : g.outputs.entries = outputsOf g.nodes

theorem Listed.blank (name : String) (width : Nat) (space : IdSpace) :
    (Graph.blank name width space).Listed := ⟨rfl, rfl, rfl⟩

theorem Listed.withListed (h : g.Listed) (nodes : List Node) : (g.withListed nodes).Listed where
  visible := h.visible
  inputs := by simp [Graph.withListed, inputsOf, h.inputs]
  outputs := by simp [Graph.withListed, outputsOf, h.outputs]

theorem addListed_eq_withListed {nodes : List Node} (hsorted : nodes.Pairwise (·.id ≤ ·.id))
    (hlast : ∀ n ∈ g.nodes, ∀ m ∈ nodes, n.id ≤ m.id)
    (h : Runs (g.addListed nodes) c (.ok g') c') : g' = g.withListed nodes := by
  induction nodes generalizing g c with
  | nil =>
    cases (runs_pure.mp h).1
    simp [Graph.withListed, inputsOf, outputsOf]
  | cons node nodes ih =>
    obtain ⟨hid, hfree, -, hrest⟩ := addListed_cons_ok.mp h
    obtain ⟨hfirst, hsorted⟩ := List.pairwise_cons.mp hsorted
    have hbelow (n : Node) (hn : n ∈ g.nodes) : n.id < node.id :=
      Nat.lt_of_le_of_ne (hlast n hn node List.mem_cons_self)
        fun heq => hid (heq ▸ mem_ids_of_mem_nodes hn)
    rw [declare_addNode hbelow hfree] at hrest
    rw [ih hsorted (fun n hn m hm => ?_) hrest, withListed_append, List.singleton_append]
    rcases List.mem_append.mp hn with hn | hn
    · exact hlast n hn m (List.mem_cons_of_mem _ hm)
    · cases List.mem_singleton.mp hn
      exact hfirst m hm

theorem pairwise_mergeSort_id (nodes : List Node) :
    (nodes.mergeSort fun a b => a.id ≤ b.id).Pairwise (·.id ≤ ·.id) := by
  refine (List.pairwise_mergeSort (fun a b d hab hbd => ?_) (fun a b => ?_) nodes).imp
    of_decide_eq_true
  · exact decide_eq_true (Nat.le_trans (of_decide_eq_true hab) (of_decide_eq_true hbd))
  · rw [Bool.or_eq_true, decide_eq_true_eq, decide_eq_true_eq]
    exact Nat.le_total a.id b.id

theorem Listed.ofParts {name : String} {width : Nat} {nodes : List Node}
    {operands : List (NodeId × Nat × NodeId)} {space : IdSpace}
    (h : Runs (Graph.ofParts name width nodes operands space) c (.ok g) c') : g.Listed := by
  obtain ⟨-, listed, hlisted, hlinked, -⟩ := ofParts_ok.mp h
  obtain ⟨-, rfl⟩ := addOperands_eq_ok.mp hlinked
  rw [addListed_eq_withListed (pairwise_mergeSort_id nodes) (by simp [Graph.blank]) hlisted]
  have hall := (Listed.blank name width space).withListed (nodes.mergeSort fun a b => a.id ≤ b.id)
  exact ⟨hall.visible, hall.inputs, hall.outputs⟩

theorem Listed.makeNode {op : Operation} {operands : List NodeId} {id : NodeId} (h : g.Listed)
    (hg : g.Under c) (hrun : Runs (g.makeNode op operands) c (.ok (id, g')) c') : g'.Listed := by
  obtain ⟨-, -, hfree, rfl, -, rfl⟩ := makeNode_ok.mp hrun
  have hbelow (n : Node) (hn : n ∈ g.nodes) : n.id < c.peek g.space :=
    hg.ids n.id (mem_ids_of_mem_nodes hn)
  have hnew : ¬ g.contains (c.peek g.space) = true := fun hmem =>
    Nat.lt_irrefl _ (hg.ids _ (contains_iff.mp hmem))
  have hadded := declare_addNode hbelow hfree
  have hlisted := h.withListed [⟨c.peek g.space, op⟩]
  rw [← hadded] at hlisted
  have hinputs : ∀ operands, ((g.grow ⟨c.peek g.space, op⟩ operands).declare (c.peek g.space)
      op).inputs = ((g.declare (c.peek g.space) op).addNode ⟨c.peek g.space, op⟩).inputs := by
    intro operands
    cases op <;> simp [declare, addNode]
  have houtputs : ∀ operands, ((g.grow ⟨c.peek g.space, op⟩ operands).declare (c.peek g.space)
      op).outputs = ((g.declare (c.peek g.space) op).addNode ⟨c.peek g.space, op⟩).outputs := by
    intro operands
    cases op <;> simp [declare, addNode]
  have hnodes : ((g.declare (c.peek g.space) op).addNode ⟨c.peek g.space, op⟩).nodes =
      placeNode ⟨c.peek g.space, op⟩ g.nodes := by
    rw [addNode, declare_nodes]
  refine ⟨?_, ?_, ?_⟩
  · rw [declare_hidden, grow_hidden, if_neg hnew, h.visible]
  · rw [hinputs, hlisted.inputs, hnodes, declare_nodes, grow_nodes]
  · rw [houtputs, hlisted.outputs, hnodes, declare_nodes, grow_nodes]

theorem Listed.removeDead (h : g.Listed) : g.removeDead.2.Listed := by
  have hkept {declared? : Node → Option (String × NodeId)}
      (hlive : ∀ n ∈ g.nodes, ∀ e, declared? n = some e → g.place n.id ∈ g.live) :
      g.removeDead.2.nodes.filterMap declared? = g.nodes.filterMap declared? := by
    change (g.nodes.filter fun n => g.live.contains (g.place n.id)).filterMap declared? = _
    rw [List.filterMap_filter]
    refine List.filterMap_congr fun n hn => ?_
    cases he : declared? n with
    | none => simp
    | some e => simp [hlive n hn e he]
  refine ⟨h.visible, h.inputs.trans (hkept fun n hn e he => ?_).symm,
    h.outputs.trans (hkept fun n hn e he => ?_).symm⟩
  · obtain ⟨name, id⟩ := e
    obtain ⟨type, rfl⟩ := declaredInput?_eq_some.mp he
    exact input_mem_live (h.inputs ▸ mem_inputsOf.mpr ⟨type, hn⟩) (mem_ids_of_mem_nodes hn)
  · obtain ⟨name, id⟩ := e
    obtain rfl := declaredOutput?_eq_some.mp he
    exact output_mem_live (h.outputs ▸ mem_outputsOf.mpr hn) (mem_ids_of_mem_nodes hn)

section Counters

variable {space : IdSpace} {c'' : IdCounters}

/-- At most one counter has moved, and forward. -/
def Raises (space : IdSpace) (c c' : IdCounters) : Prop :=
  ∃ next, c.peek space ≤ next ∧ c' = c.set space next

theorem raises_refl (hspace : space.key < c.next.length) : Raises space c c :=
  ⟨_, Nat.le_refl _, (IdCounters.set_peek hspace).symm⟩

theorem raises_advance (c : IdCounters) (space : IdSpace) (id : NodeId) :
    Raises space c (c.advance space id) :=
  ⟨_, Nat.le_max_left _ _, rfl⟩

theorem Raises.later (h : Raises space c c') : Later c c' := by
  obtain ⟨next, hle, rfl⟩ := h
  exact IdCounters.later_set hle

theorem Raises.trans (h : Raises space c c') (h' : Raises space c' c'') : Raises space c c'' := by
  obtain ⟨next, -, rfl⟩ := id h
  obtain ⟨next', hle', rfl⟩ := id h'
  refine ⟨next', Nat.le_trans (h.later.peek space) hle', ?_⟩
  rw [IdCounters.set_set]

theorem Edit.raises {r : Except GraphError Graph} (h : g.Edit c r c')
    (hspace : g.space.key < c.next.length) : Raises g.space c c' := by
  have hmake (hc : c.peek g.space + 1 < NodeId.bound) {op : Operation} {operands : List NodeId}
      {r : Except GraphError (NodeId × Graph)} (h : Runs (g.makeNode op operands) c r c') :
      Raises g.space c c' := by
    rcases makeNode_counters h with rfl | rfl
    · exact raises_refl hspace
    · exact ⟨_, by rw [IdCounters.next_of_lt hc]; exact Nat.le_succ _, rfl⟩
  cases h with
  | makeNode hc h => exact hmake hc h
  | constant hc h =>
    rcases runs_constant h with ⟨_, -, rfl⟩ | h
    · exact raises_refl hspace
    · exact hmake hc h
  | replaceUses | removeDead => exact raises_refl hspace

theorem raises_addListed {nodes : List Node} {r : Except GraphError Graph}
    (hspace : g.space.key < c.next.length) (h : Runs (g.addListed nodes) c r c') :
    Raises g.space c c' := by
  induction nodes generalizing g c with
  | nil =>
    obtain ⟨-, rfl⟩ := runs_pure.mp h
    exact raises_refl hspace
  | cons node nodes ih =>
    unfold Graph.addListed at h
    dsimp only at h
    by_cases hid : g.contains node.id = true
    · rw [if_pos hid] at h
      rw [(runs_throw_bind.mp h).2]
      exact raises_refl hspace
    · rw [if_neg hid] at h
      rcases runs_bind h with ⟨_, h, -⟩ | ⟨named, c, hregister, hrest⟩
      · rw [(runs_liftM.mp h).2]
        exact raises_refl hspace
      · obtain ⟨hnamed, rfl⟩ := runs_liftM.mp hregister
        obtain ⟨-, rfl⟩ := register_eq_ok.mp hnamed.symm
        split at hrest
        · rw [(runs_throw_bind.mp hrest).2]
          exact raises_refl hspace
        · have hmoved := raises_advance c g.space (node.id + 1)
          have hsame : ((g.declare node.id node.op).addNode node).space = g.space :=
            declare_space ..
          have htail := ih (c := c.advance g.space (node.id + 1)) (by
            rw [hsame]
            exact Nat.lt_of_lt_of_le hspace hmoved.later.length) (runs_modify_bind.mp hrest)
          rw [hsame] at htail
          exact hmoved.trans htail

/-- Restoring moves the counter past the listed nodes it has come to, even if it fails. -/
theorem raises_ofParts {name : String} {width : Nat} {nodes : List Node}
    {operands : List (NodeId × Nat × NodeId)} {r : Except GraphError Graph}
    (hspace : space.key < c.next.length)
    (h : Runs (Graph.ofParts name width nodes operands space) c r c') : Raises space c c' := by
  rcases runs_bind h with ⟨_, hfail, -⟩ | ⟨empty, _, hcreate, hrest⟩
  · rw [(runs_liftM.mp hfail).2]
    exact raises_refl hspace
  obtain ⟨hempty, rfl⟩ := runs_liftM.mp hcreate
  obtain ⟨-, rfl⟩ := create_ok.mp hempty.symm
  rcases runs_bind hrest with ⟨_, hfail, -⟩ | ⟨listed, c₁, hlisted, hlinks⟩
  · exact raises_addListed (g := blank name width space) hspace hfail
  suffices heq : c' = c₁ from
    heq ▸ raises_addListed (g := blank name width space) hspace hlisted
  rcases runs_bind hlinks with ⟨_, hfail, -⟩ | ⟨linked, c₂, hlinked, hchecks⟩
  · exact (runs_liftM.mp hfail).2
  rw [← (runs_liftM.mp hlinked).2]
  rcases runs_bind hchecks with ⟨_, hfail, -⟩ | ⟨_, c₃, hchecked, hend⟩
  · exact state_of_runs_forM_liftM hfail
  · rw [(runs_pure.mp hend).2, state_of_runs_forM_liftM hchecked]

end Counters

theorem Edit.ok (he : g.Edit c (.ok g') c') :
    (∃ op operands id, c.peek g.space + 1 < NodeId.bound ∧
        Runs (g.makeNode op operands) c (.ok (id, g')) c') ∨
      (∃ old new n, g.replaceUses old new = .ok (n, g')) ∨ g' = g.removeDead.2 := by
  have hmade {op : Operation} {operands : List NodeId} {r : Except GraphError (NodeId × Graph)}
      (hr : r.map (·.2) = .ok g') (hc : c.peek g.space + 1 < NodeId.bound)
      (h : Runs (g.makeNode op operands) c r c') :
      ∃ op operands id, c.peek g.space + 1 < NodeId.bound ∧
        Runs (g.makeNode op operands) c (.ok (id, g')) c' := by
    obtain _ | ⟨id, _⟩ := r <;> cases hr
    exact ⟨op, operands, id, hc, h⟩
  generalize hr : (Except.ok g' : Except GraphError Graph) = r at he
  cases he with
  | makeNode hc h => exact .inl (hmade hr.symm hc h)
  | constant hc h =>
    rcases runs_constant h with ⟨_, rfl, -⟩ | h
    · cases hr
    · exact .inl (hmade hr.symm hc h)
  | replaceUses old new =>
    cases hu : g.replaceUses old new with
    | error e =>
      rw [hu] at hr
      cases hr
    | ok replaced =>
      rw [hu] at hr
      cases hr
      exact .inr (.inl ⟨old, new, replaced.1, hu⟩)
  | removeDead =>
    cases hr
    exact .inr (.inr rfl)

theorem Edit.reachable (he : g.Edit c (.ok g') c') (hg : g.Reachable) : g'.Reachable := by
  obtain ⟨_, _, _, -, h⟩ | ⟨_, _, _, h⟩ | rfl := he.ok
  · exact .makeNode hg h
  · exact .replaceUses hg h
  · exact .removeDead hg

theorem Edit.listed (he : g.Edit c (.ok g') c') (hg : g.Listed) (hunder : g.Under c) :
    g'.Listed := by
  obtain ⟨_, _, _, -, h⟩ | ⟨_, _, _, h⟩ | rfl := he.ok
  · exact hg.makeNode hunder h
  · obtain ⟨_, rfl⟩ := replaceUses_frame h
    exact ⟨hg.visible, hg.inputs, hg.outputs⟩
  · exact hg.removeDead

theorem Edit.belowLast (he : g.Edit c (.ok g') c') (hg : g.BelowLast) : g'.BelowLast := by
  obtain ⟨_, _, _, hc, h⟩ | ⟨_, _, _, h⟩ | rfl := he.ok
  · obtain ⟨-, -, -, rfl, -, rfl⟩ := makeNode_ok.mp h
    intro id hid
    rw [ids, declare_nodes] at hid
    rcases mem_ids_grow.mp hid with rfl | hid
    · exact hc
    · exact hg id hid
  · exact fun id hid => hg id (ids_replaceUses h ▸ hid)
  · exact fun id hid => hg id (ids_removeDead_sublist.subset hid)

theorem belowLast_ofParts {name : String} {width : Nat} {nodes : List Node}
    {operands : List (NodeId × Nat × NodeId)} {space : IdSpace}
    (h : Runs (Graph.ofParts name width nodes operands space) c (.ok g) c') : g.BelowLast := by
  obtain ⟨-, listed, hlisted, hlinked, -⟩ := ofParts_ok.mp h
  obtain ⟨-, rfl⟩ := addOperands_eq_ok.mp hlinked
  have hlast := lt_bound_of_addListed hlisted
  rw [addListed_eq_withListed (pairwise_mergeSort_id nodes) (by simp [Graph.blank]) hlisted]
  exact List.forall_mem_map.mpr hlast

theorem Drawn.belowLast (h : g.Drawn c) : g.BelowLast := by
  induction h with
  | create h =>
    obtain ⟨-, rfl⟩ := create_ok.mp h
    exact fun _ hid => absurd hid List.not_mem_nil
  | ofParts _ h => exact belowLast_ofParts h
  | edited _ he ih => exact he.belowLast ih
  | rebind _ _ ih => exact ih
  | later _ _ ih => exact ih

theorem Drawn.reachable (h : g.Drawn c) : g.Reachable := by
  induction h with
  | create h => exact .create h
  | ofParts _ h => exact .ofParts h
  | edited _ he ih => exact he.reachable ih
  | rebind _ _ ih => exact ih.rebind _
  | later _ _ ih => exact ih

theorem Drawn.listed (h : g.Drawn c) : g.Listed := by
  induction h with
  | create h =>
    obtain ⟨-, rfl⟩ := create_ok.mp h
    exact .blank ..
  | ofParts _ h => exact .ofParts h
  | edited hg he ih => exact he.listed ih hg.under
  | rebind _ _ ih => exact ⟨ih.visible, ih.inputs, ih.outputs⟩
  | later _ _ ih => exact ih

theorem Drawn.intact (h : g.Drawn c) : g.Intact c where
  ascending := h.reachable.sound.ascending
  below := h.under.ids
  visible := h.listed.visible
  found _ hn := (node?_eq_some h.reachable.sound.ascending).mpr ⟨hn, rfl⟩
  inputs := h.listed.inputs
  outputs := h.listed.outputs
  inputNames := h.reachable.sound.inputs
  outputNames := h.reachable.sound.outputs
  operands_mem _ _ ho := h.reachable.sound.mem_ids_of_mem_operands h.listed.visible ho
  arity := h.reachable.sound.arity
  reads_mem _ ht := h.reachable.sound.reads_mem h.listed.visible ht
  operands := h.reachable.sound.operands_of_reads h.listed.visible
  uses := h.reachable.sound.uses_of_reads h.listed.visible
  useCount := useCount_eq g

end Graph

namespace Group

variable {gr gr' : Group} {g : Graph} {past : List Group} {adopted : List (Group × Graph)}

/-- The members of a group are on its space, and drawn from its counter. -/
def Housed (gr : Group) (c : IdCounters) : Prop :=
  ∀ name g, gr.members.find? name = some g → g.space = gr.space ∧ g.Drawn c

theorem Housed.later (h : gr.Housed c) (hc : Later c c') : gr.Housed c' :=
  fun name g hg => (h name g hg).imp_right fun hdrawn => hdrawn.later hc

theorem Housed.insert (h : gr.Housed c) (hspace : g.space = gr.space) (hg : g.Drawn c)
    (name : String) : Housed { gr with members := gr.members.insert name g } c :=
  OrderedMap.forall_find?_insert ⟨hspace, hg⟩ h

theorem Step.housed (hs : gr.Step c (.ok gr') c') (h : gr.Housed c)
    (hroom : gr.space.key < c.next.length) : gr'.Housed c' := by
  have hlater := h.later hs.later
  obtain rfl | ⟨name, g', rfl, ⟨width, hnew⟩ | ⟨g, hg, hedit⟩⟩ := hs.ok
  · exact hlater
  · have hspace : g'.space = gr.space := by
      obtain ⟨-, rfl⟩ := Graph.create_ok.mp hnew
      rfl
    exact hlater.insert hspace (.create hnew (Nat.lt_of_lt_of_le hroom hs.later.length)) name
  · obtain ⟨hspace, hdrawn⟩ := h name g hg
    have hkept := (hedit.draws hdrawn.under.space).space
    exact hlater.insert (hkept.trans hspace) (.edited hdrawn hedit) name

theorem addGraph_housed (hadd : Runs (gr.addGraph g) c (.ok gr') c') (h : gr.Housed c)
    (hg : g.Drawn c) (hroom : gr.space.key < c.next.length) : gr'.Housed c' := by
  obtain ⟨-, -, ⟨hspace, rfl, rfl⟩ | ⟨-, -, rfl, rfl⟩⟩ := addGraph_ok hadd
  · exact h.insert hspace hg g.name
  · exact (h.later (IdCounters.later_advance ..)).insert (g := { g with space := gr.space }) rfl
      (.rebind hg hroom) g.name

theorem Step.raises {e : GraphError} (hs : gr.Step c (.error e) c') (h : gr.Housed c)
    (hroom : gr.space.key < c.next.length) : Graph.Raises gr.space c c' := by
  generalize hr : (Except.error e : Except GraphError Group) = r at hs
  cases hs with
  | newGraph | absent => exact Graph.raises_refl hroom
  | edited hg hedit =>
    obtain ⟨hspace, hdrawn⟩ := h _ _ (member?_eq_ok.mp hg)
    exact hspace ▸ hedit.raises hdrawn.under.space
  | elsewhere => cases hr

theorem Course.housed (h : Course past adopted gr c) : gr.Housed c := by
  induction h with
  | create => exact fun _ _ hg => nomatch hg
  | @step _ _ _ _ _ r h hs ih =>
    cases r with
    | ok gr' => exact hs.housed ih h.bounded.space
    | error e => exact ih.later hs.later
  | adopt h hg hadd ih => exact addGraph_housed hadd ih hg h.bounded.space
  | refused _ hadd ih => exact addGraph_error hadd ▸ ih

end Group

namespace Graph

variable {g : Graph}

/-- However a graph has been made and worked on, its nodes, edges, tables and counter agree, and
they still do after any further call. A call that fails moves its counter forward, if it changes
anything at all. So it is with the members of a group, whatever happens to the group; a graph joins
it with all its parts. -/
theorem Drawn.representation (h : g.Drawn c) :
    g.Intact c ∧
    (∀ r c', g.Edit c r c' → Raises g.space c c' ∧ g.Intact c' ∧
      ∀ g', r = .ok g' → g'.Drawn c' ∧ g'.Intact c') ∧
    (∀ name width nodes operands space r c', space.key < c.next.length →
      Runs (Graph.ofParts name width nodes operands space) c r c' →
        Raises space c c' ∧ g.Intact c' ∧
          ∀ g', r = .ok g' → g'.Drawn c' ∧ g'.Intact c') ∧
    (∀ past adopted gr, Group.Course past adopted gr c →
      (∀ name k, gr.members.find? name = some k → k.Drawn c ∧ k.Intact c) ∧
      (∀ e c', gr.Step c (.error e) c' → Raises gr.space c c' ∧
        Group.Course (gr :: past) adopted gr c') ∧
      (∀ e c', Runs (gr.addGraph g) c (.error e) c' → c' = c) ∧
      ∀ gr' c', Runs (gr.addGraph g) c (.ok gr') c' →
        ∃ past' adopted', Group.Course past' adopted' gr' c' ∧
          gr'.members.find? g.name = some { g with space := gr.space }) := by
  refine ⟨h.intact, fun r c' he => ?_, fun name width nodes operands space r c' hspace hrun => ?_,
    fun past adopted gr hcourse => ⟨fun name k hk => ?_, fun e c' hstep => ?_,
      fun e c' hadd => Group.addGraph_error hadd, fun gr' c' hadd => ?_⟩⟩
  · refine ⟨he.raises h.under.space, h.intact.later he.later, fun g' hr => ?_⟩
    have hdrawn := Drawn.edited h (hr ▸ he)
    exact ⟨hdrawn, hdrawn.intact⟩
  · have hraised := raises_ofParts hspace hrun
    refine ⟨hraised, h.intact.later hraised.later, fun g' hr => ?_⟩
    have hdrawn := Drawn.ofParts hspace (hr ▸ hrun)
    exact ⟨hdrawn, hdrawn.intact⟩
  · have hdrawn := (hcourse.housed name k hk).2
    exact ⟨hdrawn, hdrawn.intact⟩
  · exact ⟨hstep.raises hcourse.housed hcourse.bounded.space, hcourse.step hstep⟩
  · refine ⟨_, _, hcourse.adopt h hadd, ?_⟩
    obtain ⟨-, -, ⟨hspace, -, rfl⟩ | ⟨-, -, -, rfl⟩⟩ := Group.addGraph_ok hadd
    · rw [← hspace]
      exact OrderedMap.find?_insert_self
    · exact OrderedMap.find?_insert_self

/-- `x + x` under the name `y`. -/
def doubled : Graph :=
  { Graph.blank "d" 1 ⟨0⟩ with
    nodes := [⟨0, .input "x" .cipher⟩, ⟨1, .arithmetic .add⟩, ⟨2, .output "y"⟩]
    edges := [⟨⟨1, 0⟩, ⟨2, 0⟩, 0⟩, ⟨⟨0, 0⟩, ⟨1, 0⟩, 1⟩, ⟨⟨0, 0⟩, ⟨1, 0⟩, 0⟩]
    inputs := ⟨[("x", 0)]⟩
    outputs := ⟨[("y", 2)]⟩ }

theorem drawn_doubled : doubled.Drawn ⟨[3]⟩ := by
  have hparts : Runs (Graph.ofParts "d" 1
      [⟨1, .arithmetic .add⟩, ⟨2, .output "y"⟩, ⟨0, .input "x" .cipher⟩]
      [(1, 0, 0), (1, 1, 0), (2, 0, 1)] ⟨0⟩) ⟨[0]⟩ (.ok doubled) ⟨[3]⟩ := by
    unfold Runs
    cbv
  exact .ofParts (by decide) hparts

/-- A second output `y` is refused, at the cost of an id. -/
theorem Drawn.representation_doubled :
    doubled.Intact ⟨[3]⟩ ∧ doubled.uses 0 = [(1, 0), (1, 1)] ∧ doubled.useCount 0 = 2 ∧
      doubled.Edit ⟨[3]⟩ (.error (.duplicateOutput "y")) ⟨[4]⟩ ∧ doubled.Intact ⟨[4]⟩ := by
  have hrefused : Runs (doubled.makeNode (.output "y") [1]) ⟨[3]⟩
      (.error (.duplicateOutput "y")) ⟨[4]⟩ := by
    unfold Runs
    rfl
  have hedit : doubled.Edit ⟨[3]⟩ (.error (.duplicateOutput "y")) ⟨[4]⟩ :=
    .makeNode (by decide) hrefused
  obtain ⟨hintact, hcalls, -⟩ := Drawn.representation drawn_doubled
  exact ⟨hintact, by cbv, rfl, hedit, (hcalls _ _ hedit).2.1⟩

end Graph

end CipherGraph

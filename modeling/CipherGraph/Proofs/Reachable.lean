import CipherGraph.Graph.Record
import CipherGraph.Proofs.Liveness
import CipherGraph.Proofs.Redirection
import CipherGraph.Proofs.Tables

/-! # Reachable graphs

The graphs that builder calls, restored parts, replacements and removals lead to, whatever the
counters do, and what holds in all of them.
-/

namespace CipherGraph.Graph

/-- Graphs that come out of the program. -/
inductive Reachable : Graph → Prop where
  | create {name : String} {width : Nat} {space : IdSpace} {g : Graph}
      (h : Graph.create name width space = .ok g) : Reachable g
  | makeNode {g g' : Graph} {op : Operation} {operands : List NodeId} {id : NodeId}
      {c c' : IdCounters} (hg : Reachable g)
      (h : Runs (g.makeNode op operands) c (.ok (id, g')) c') : Reachable g'
  | ofParts {name : String} {width : Nat} {nodes : List Node}
      {operands : List (NodeId × Nat × NodeId)} {space : IdSpace} {c c' : IdCounters} {g : Graph}
      (h : Runs (Graph.ofParts name width nodes operands space) c (.ok g) c') : Reachable g
  | replaceUses {g g' : Graph} {old new : NodeId} {n : Nat} (hg : Reachable g)
      (h : g.replaceUses old new = .ok (n, g')) : Reachable g'
  | removeDead {g : Graph} (hg : Reachable g) : Reachable g.removeDead.2
  | rebind {g : Graph} (hg : Reachable g) (space : IdSpace) : Reachable { g with space }

/-- Edges join nodes of the graph, and every node has as many operands as it takes. -/
structure Sound (g : Graph) : Prop where
  ascending : g.ids.Pairwise (· < ·)
  sources : ∀ e ∈ g.edges, e.source ∈ g.places
  targets : ∀ e ∈ g.edges, e.target ∈ g.places
  arity : ∀ n ∈ g.nodes, (g.operands n.id).length = n.op.arity
  inputs : g.inputs.keys.Nodup
  outputs : g.outputs.keys.Nodup

variable {g : Graph}

theorem Sound.nodup (h : g.Sound) : g.ids.Nodup := h.ascending.imp Nat.ne_of_lt

theorem Sound.node_eq (h : g.Sound) {n n' : Node} (hn : n ∈ g.nodes) (hn' : n' ∈ g.nodes)
    (hid : n.id = n'.id) : n = n' :=
  List.inj_on_of_nodup_map h.nodup hn hn' hid

theorem Sound.blank (name : String) (width : Nat) (space : IdSpace) :
    (Graph.blank name width space).Sound where
  ascending := .nil
  sources := by simp [Graph.blank]
  targets := by simp [Graph.blank]
  arity := by simp [Graph.blank]
  inputs := .nil
  outputs := .nil

theorem Sound.grow (h : g.Sound) {node : Node} {operands : List NodeId}
    (hlen : operands.length = node.op.arity) (hin : ∀ o ∈ operands, o ∈ g.ids) :
    (g.grow node operands).Sound where
  ascending := by
    rw [ids, grow_nodes]
    exact ascending_placeNode h.ascending
  sources e he := mem_places_grow (source_of_mem_grow_edges h.sources hin he)
  targets e he := by
    rw [grow_edges] at he
    rcases List.mem_append.mp he with he | he
    · rw [(target_of_mem_operandEdges (List.mem_reverse.mp he)).1]
      exact place_mem_places (mem_ids_grow.mpr (.inl rfl))
    · exact mem_places_grow (h.targets e he)
  arity n hn := by
    rw [grow_nodes, mem_placeNode h.ascending] at hn
    rcases hn with rfl | ⟨hn, hne⟩
    · rw [operands_grow_self h.targets, hlen]
    · rw [operands_grow_of_ne hne, h.arity n hn]
  inputs := by
    rw [grow_inputs]
    exact h.inputs
  outputs := by
    rw [grow_outputs]
    exact h.outputs

theorem Sound.of_tables (h : g.Sound) {g' : Graph} (hn : g'.nodes = g.nodes)
    (hh : g'.hidden = g.hidden) (he : g'.edges = g.edges) (hi : g'.inputs.keys.Nodup)
    (ho : g'.outputs.keys.Nodup) : g'.Sound := by
  obtain ⟨name, width, nodes, hidden, edges, inputs, outputs, space⟩ := g
  obtain ⟨name', width', nodes', hidden', edges', inputs', outputs', space'⟩ := g'
  dsimp only at hn hh he
  subst hn hh he
  exact ⟨h.ascending, h.sources, h.targets, h.arity, hi, ho⟩

theorem Sound.declare (h : g.Sound) (id : NodeId) (op : Operation) : (g.declare id op).Sound := by
  refine h.of_tables (by simp) (by simp) (by simp) ?_ ?_
  · cases op <;> first | exact h.inputs | exact OrderedMap.nodup_keys_insert h.inputs
  · cases op <;> first | exact h.outputs | exact OrderedMap.nodup_keys_insert h.outputs

theorem Sound.redirect (h : g.Sound) {old new : NodeId} (hnew : new ∈ g.ids) :
    (g.redirect old new).Sound where
  ascending := h.ascending
  sources e he := by
    rcases List.mem_append.mp he with he | he
    · obtain ⟨f, -, rfl⟩ := List.mem_map.mp he
      exact place_mem_places (g := g) hnew
    · exact h.sources e (List.mem_filter.mp he).1
  targets e he := by
    rcases List.mem_append.mp he with he | he
    · obtain ⟨f, hf, rfl⟩ := List.mem_map.mp he
      have hf := (List.mem_filter.mp (List.mem_reverse.mp hf)).1
      exact h.targets f (List.mem_filter.mp hf).1
    · exact h.targets e (List.mem_filter.mp he).1
  arity n hn := by
    rw [length_operands_redirect]
    exact h.arity n hn
  inputs := h.inputs
  outputs := h.outputs

theorem Sound.replaceUses (h : g.Sound) {old new : NodeId} {n : Nat} {g' : Graph}
    (hr : g.replaceUses old new = .ok (n, g')) : g'.Sound := by
  obtain ⟨-, hnew, ⟨-, -, rfl⟩ | ⟨-, -, rfl⟩⟩ := replaceUses_eq_ok.mp hr
  · exact h
  · exact h.redirect hnew

theorem mem_places_removeDead {p : Place} (hp : p ∈ g.places) (hd : p ∉ g.dead) :
    p ∈ g.removeDead.2.places := by
  rw [mem_places] at hp ⊢
  refine hp.imp_right fun ⟨hb, hid⟩ => ⟨hb, ?_⟩
  obtain ⟨n, hn, hnid⟩ := List.mem_map.mp hid
  refine List.mem_map.mpr ⟨n, mem_nodes_removeDead.mpr ⟨hn, ?_⟩, hnid⟩
  have hplace : p = g.place p.id := by rw [place, ← hb]
  by_contra hl
  exact hd (mem_dead.mpr ⟨⟨p.id, hid, hplace⟩, by rwa [hplace, ← hnid]⟩)

theorem Sound.removeDead (h : g.Sound) : g.removeDead.2.Sound where
  ascending := h.ascending.sublist ids_removeDead_sublist
  sources e he := by
    obtain ⟨he, hs, -⟩ := mem_edges_removeDead.mp he
    exact mem_places_removeDead (h.sources e he) hs
  targets e he := by
    obtain ⟨he, -, ht⟩ := mem_edges_removeDead.mp he
    exact mem_places_removeDead (h.targets e he) ht
  arity n hn := by
    obtain ⟨hn, hl⟩ := mem_nodes_removeDead.mp hn
    rw [operands_removeDead hl]
    exact h.arity n hn
  inputs := h.inputs
  outputs := h.outputs

/-- One listed node is new, and so is the name it declares, and its id is not the last of all. -/
theorem addListed_cons_ok {node : Node} {nodes : List Node} {c c' : IdCounters} {g' : Graph} :
    Runs (g.addListed (node :: nodes)) c (.ok g') c' ↔
      node.id ∉ g.ids ∧ g.Declares node.op ∧ node.id + 1 < NodeId.bound ∧
        Runs (((g.declare node.id node.op).addNode node).addListed nodes)
          (c.advance g.space (node.id + 1)) (.ok g') c' := by
  rw [addListed]
  by_cases hid : node.id ∈ g.ids
  · have hcontains : g.contains node.id = true := contains_iff.mpr hid
    simp only [hcontains, ↓reduceIte, hid, not_true_eq_false, false_and, iff_false]
    intro h
    obtain ⟨_, _, h, -⟩ := runs_bind_ok.mp h
    simp at h
  · have hcontains : ¬g.contains node.id = true := mt contains_iff.mp hid
    simp only [hcontains, Bool.false_eq_true, ↓reduceIte, hid, not_false_eq_true, true_and]
    constructor
    · intro h
      obtain ⟨named, _, hregister, hrest⟩ := runs_bind_ok.mp h
      obtain ⟨hnamed, rfl⟩ := runs_liftM.mp hregister
      obtain ⟨hfree, rfl⟩ := register_eq_ok.mp hnamed.symm
      split at hrest
      · obtain ⟨_, _, hrest, -⟩ := runs_bind_ok.mp hrest
        simp at hrest
      · next hlast => exact ⟨hfree, Nat.not_le.mp hlast, runs_modify_bind.mp hrest⟩
    · rintro ⟨hfree, hlast, hrest⟩
      rw [runs_bind_of_ok (runs_liftM.mpr ⟨(register_eq_ok.mpr ⟨hfree, rfl⟩).symm, rfl⟩),
        if_neg (Nat.not_le.mpr hlast)]
      exact runs_modify_bind.mpr hrest

theorem lt_bound_of_addListed {nodes : List Node} {c c' : IdCounters} {g' : Graph}
    (h : Runs (g.addListed nodes) c (.ok g') c') : ∀ n ∈ nodes, n.id + 1 < NodeId.bound := by
  induction nodes generalizing g c with
  | nil => exact fun _ hn => absurd hn List.not_mem_nil
  | cons node nodes ih =>
    obtain ⟨-, -, hlast, hrest⟩ := addListed_cons_ok.mp h
    exact List.forall_mem_cons.mpr ⟨hlast, ih hrest⟩

/-- The edge of a consumer, a position and an operand. -/
def edgeOf (g : Graph) (t : NodeId × Nat × NodeId) : Edge := ⟨g.place t.2.2, g.place t.1, t.2.1⟩

theorem addOperands_eq_ok {operands : List (NodeId × Nat × NodeId)} {g' : Graph} :
    g.addOperands operands = .ok g' ↔
      (∀ t ∈ operands, t.1 ∈ g.ids ∧ t.2.2 ∈ g.ids) ∧
        g' = { g with edges := (operands.map g.edgeOf).reverse ++ g.edges } := by
  induction operands generalizing g with
  | nil => simp [addOperands, eq_comm]
  | cons t operands ih =>
    obtain ⟨consumer, position, operand⟩ := t
    rw [addOperands]
    simp only [Except.bind_eq_ok, require_eq_ok, ih, List.forall_mem_cons]
    constructor
    · rintro ⟨_, hc, _, ho, hrest, rfl⟩
      exact ⟨⟨⟨hc, ho⟩, hrest⟩, by simp [addEdge, edgeOf, place]⟩
    · rintro ⟨⟨⟨hc, ho⟩, hrest⟩, rfl⟩
      exact ⟨⟨⟩, hc, ⟨⟩, ho, hrest, by simp [addEdge, edgeOf, place]⟩

theorem checkArity_eq_ok {node : Node} {u : Unit} :
    g.checkArity node = .ok u ↔ (g.operands node.id).length = node.op.arity := by
  unfold checkArity
  split <;> simp_all

theorem ofParts_ok {name : String} {width : Nat} {nodes : List Node}
    {operands : List (NodeId × Nat × NodeId)} {space : IdSpace} {c c' : IdCounters} :
    Runs (Graph.ofParts name width nodes operands space) c (.ok g) c' ↔
      0 < width ∧ ∃ listed,
        Runs ((blank name width space).addListed (nodes.mergeSort fun a b => a.id ≤ b.id)) c
          (.ok listed) c' ∧
        listed.addOperands operands = .ok g ∧
        ∀ n ∈ g.nodes, (g.operands n.id).length = n.op.arity := by
  constructor
  · intro h
    obtain ⟨empty, _, r₁, h⟩ := runs_bind_ok.mp h
    obtain ⟨listed, _, hlisted, h⟩ := runs_bind_ok.mp h
    obtain ⟨linked, _, r₂, h⟩ := runs_bind_ok.mp h
    obtain ⟨_, _, r₃, h⟩ := runs_bind_ok.mp h
    obtain ⟨hg, rfl⟩ := runs_pure.mp h
    obtain ⟨harity, rfl⟩ := runs_forM_liftM.mp r₃
    obtain ⟨hlinked, rfl⟩ := runs_liftM.mp r₂
    obtain ⟨hempty, rfl⟩ := runs_liftM.mp r₁
    cases hg
    obtain ⟨hwidth, rfl⟩ := create_ok.mp hempty.symm
    exact ⟨hwidth, listed, hlisted, hlinked.symm, fun n hn => checkArity_eq_ok.mp (harity n hn)⟩
  · rintro ⟨hwidth, listed, hlisted, hlinked, harity⟩
    have hempty : Graph.create name width space = .ok (blank name width space) :=
      create_ok.mpr ⟨hwidth, rfl⟩
    unfold ofParts
    rw [runs_bind_of_ok (runs_liftM.mpr ⟨hempty.symm, rfl⟩), runs_bind_of_ok hlisted,
      runs_bind_of_ok (runs_liftM.mpr ⟨hlinked.symm, rfl⟩),
      runs_bind_of_ok
        (runs_forM_liftM (u := ⟨⟩) |>.mpr ⟨fun n hn => checkArity_eq_ok.mpr (harity n hn), rfl⟩)]
    exact runs_pure.mpr ⟨rfl, rfl⟩

/-- Nodes alone, before any edge is drawn. -/
structure Bare (g : Graph) : Prop where
  ascending : g.ids.Pairwise (· < ·)
  edges : g.edges = []
  inputs : g.inputs.keys.Nodup
  outputs : g.outputs.keys.Nodup

theorem Bare.blank (name : String) (width : Nat) (space : IdSpace) :
    (Graph.blank name width space).Bare := ⟨.nil, rfl, .nil, .nil⟩

theorem Bare.addNode (h : g.Bare) (node : Node) : (g.addNode node).Bare :=
  ⟨ascending_placeNode h.ascending, h.edges, h.inputs, h.outputs⟩

theorem Bare.declare (h : g.Bare) (id : NodeId) (op : Operation) : (g.declare id op).Bare where
  ascending := by
    rw [ids, declare_nodes]
    exact h.ascending
  edges := by rw [declare_edges, h.edges]
  inputs := by cases op <;> first | exact h.inputs | exact OrderedMap.nodup_keys_insert h.inputs
  outputs := by cases op <;> first | exact h.outputs | exact OrderedMap.nodup_keys_insert h.outputs

theorem Bare.addListed {nodes : List Node} {c c' : IdCounters} {g' : Graph} (hg : g.Bare)
    (h : Runs (g.addListed nodes) c (.ok g') c') : g'.Bare := by
  induction nodes generalizing g c with
  | nil =>
    obtain ⟨hg', -⟩ := runs_pure.mp h
    cases hg'
    exact hg
  | cons node nodes ih =>
    obtain ⟨-, -, -, hrest⟩ := addListed_cons_ok.mp h
    exact ih ((hg.declare _ _).addNode node) hrest

theorem Sound.ofParts {name : String} {width : Nat} {nodes : List Node}
    {operands : List (NodeId × Nat × NodeId)} {space : IdSpace} {c c' : IdCounters}
    (h : Runs (Graph.ofParts name width nodes operands space) c (.ok g) c') : g.Sound := by
  obtain ⟨-, listed, hlisted, hlinked, harity⟩ := ofParts_ok.mp h
  have hbare := (Bare.blank name width space).addListed hlisted
  obtain ⟨hin, rfl⟩ := addOperands_eq_ok.mp hlinked
  have hedge : ∀ e ∈ (operands.map listed.edgeOf).reverse ++ listed.edges,
      e.source ∈ listed.places ∧ e.target ∈ listed.places := by
    intro e he
    rw [hbare.edges, List.append_nil] at he
    obtain ⟨t, ht, rfl⟩ := List.mem_map.mp (List.mem_reverse.mp he)
    exact ⟨place_mem_places (hin t ht).2, place_mem_places (hin t ht).1⟩
  exact ⟨hbare.ascending, fun e he => (hedge e he).1, fun e he => (hedge e he).2, harity,
    hbare.inputs, hbare.outputs⟩

theorem Reachable.sound (h : g.Reachable) : g.Sound := by
  induction h with
  | create h =>
    obtain ⟨-, rfl⟩ := create_ok.mp h
    exact Sound.blank ..
  | makeNode _ h ih =>
    obtain ⟨hlen, hin, -, rfl, -, rfl⟩ := makeNode_ok.mp h
    exact (ih.grow hlen hin).declare _ _
  | ofParts h => exact .ofParts h
  | replaceUses _ h ih => exact ih.replaceUses h
  | removeDead _ ih => exact ih.removeDead
  | rebind _ space ih => exact ih.of_tables rfl rfl rfl ih.inputs ih.outputs

theorem width_addListed {nodes : List Node} {c c' : IdCounters} {g' : Graph}
    (h : Runs (g.addListed nodes) c (.ok g') c') : g'.width = g.width := by
  induction nodes generalizing g c with
  | nil =>
    obtain ⟨hg', -⟩ := runs_pure.mp h
    cases hg'
    rfl
  | cons node nodes ih =>
    obtain ⟨-, -, -, hrest⟩ := addListed_cons_ok.mp h
    exact (ih hrest).trans (declare_width ..)

theorem Reachable.width_pos (h : g.Reachable) : 0 < g.width := by
  induction h with
  | create h =>
    obtain ⟨hwidth, rfl⟩ := create_ok.mp h
    exact hwidth
  | makeNode _ h ih =>
    obtain ⟨-, -, -, -, -, rfl⟩ := makeNode_ok.mp h
    rwa [declare_width, grow_width]
  | ofParts h =>
    obtain ⟨hwidth, listed, hlisted, hlinked, -⟩ := ofParts_ok.mp h
    obtain ⟨-, rfl⟩ := addOperands_eq_ok.mp hlinked
    rwa [width_addListed hlisted]
  | replaceUses _ h ih =>
    obtain ⟨_, rfl⟩ := replaceUses_frame h
    exact ih
  | removeDead _ ih => exact ih
  | rebind _ _ ih => exact ih

end CipherGraph.Graph

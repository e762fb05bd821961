import CipherGraph.Proofs.Reachable

/-! # Well-formed graphs

Graphs whose ids are all borne once and whose consumers read every port once. Builder calls
make them as long as the counter of their space does not wrap around.
-/

namespace CipherGraph

namespace Graph

/-- The declared inputs and outputs are nodes of these names. -/
structure Named (g : Graph) : Prop where
  inputs : ∀ name id, (name, id) ∈ g.inputs.entries → ∃ type, ⟨id, .input name type⟩ ∈ g.nodes
  outputs : ∀ name id, (name, id) ∈ g.outputs.entries → ⟨id, .output name⟩ ∈ g.nodes

/-- No port is read twice. -/
def Ported (g : Graph) : Prop := ∀ id, ((g.incoming id).map (·.position)).Nodup

/-- No node is hidden, no port is read twice, and the named nodes are the declared ones. -/
structure Wellformed (g : Graph) : Prop extends g.Sound where
  visible : g.hidden = []
  ports : ∀ id, ((g.incoming id).map (·.position)).Nodup
  inputNodes : ∀ name id, (name, id) ∈ g.inputs.entries → ∃ type, ⟨id, .input name type⟩ ∈ g.nodes
  outputNodes : ∀ name id, (name, id) ∈ g.outputs.entries → ⟨id, .output name⟩ ∈ g.nodes

variable {g : Graph} {old new : NodeId}

theorem mem_ids_of_mem_nodes {n : Node} (h : n ∈ g.nodes) : n.id ∈ g.ids := List.mem_map_of_mem h

theorem exists_node_of_mem_ids {id : NodeId} (h : id ∈ g.ids) : ∃ op, ⟨id, op⟩ ∈ g.nodes := by
  obtain ⟨⟨_, op⟩, hn, rfl⟩ := List.mem_map.mp h
  exact ⟨op, hn⟩

theorem mem_places_of_visible (hv : g.hidden = []) {p : Place} :
    p ∈ g.places ↔ p.id ∈ g.ids ∧ p = g.place p.id := by
  rw [Graph.mem_places, place, hv]
  obtain ⟨id, bearer⟩ := p
  simp [and_comm]

theorem Sound.mem_ids_of_mem_operands (h : g.Sound) (hv : g.hidden = []) {id operand : NodeId}
    (ho : operand ∈ g.operands id) : operand ∈ g.ids := by
  obtain ⟨e, he, rfl⟩ := mem_operands.mp ho
  exact ((mem_places_of_visible hv).mp (h.sources e (mem_incoming.mp he).1)).1

theorem Sound.mem_ids_of_operand (h : g.Sound) (hv : g.hidden = []) {id operand : NodeId}
    (ho : operand ∈ g.operands id) : id ∈ g.ids := by
  obtain ⟨e, he, -⟩ := mem_operands.mp ho
  obtain ⟨he, ht⟩ := mem_incoming.mp he
  exact ((mem_places_of_visible hv).mp (ht ▸ h.targets e he)).1

theorem Sound.operands_of_not_mem (h : g.Sound) (hv : g.hidden = []) {id : NodeId}
    (hid : id ∉ g.ids) : g.operands id = [] :=
  List.eq_nil_iff_forall_not_mem.mpr fun _ ho => hid (h.mem_ids_of_operand hv ho)

theorem Wellformed.mem_places (h : g.Wellformed) {p : Place} :
    p ∈ g.places ↔ p.id ∈ g.ids ∧ p = g.place p.id := mem_places_of_visible h.visible

theorem Wellformed.mem_ids_of_mem_operands (h : g.Wellformed) {id operand : NodeId}
    (ho : operand ∈ g.operands id) : operand ∈ g.ids :=
  h.toSound.mem_ids_of_mem_operands h.visible ho

theorem Sound.source_eq_place_iff (h : g.Sound) (hv : g.hidden = []) {e : Edge} (he : e ∈ g.edges)
    {id : NodeId} : e.source = g.place id ↔ e.source.id = id := by
  constructor
  · intro heq
    rw [heq, place]
  · rintro rfl
    exact ((mem_places_of_visible hv).mp (h.sources e he)).2

/-- A replacement renames the operands, though not always in place. -/
theorem Sound.operands_redirect_perm (h : g.Sound) (hv : g.hidden = []) {c : NodeId}
    (hc : c ≠ new) :
    ((g.redirect old new).operands c).Perm
      ((g.operands c).map fun o => if o = old then new else o) := by
  have hrenamed (p : Edge → Prop) [DecidablePred p] (f : Edge → NodeId)
      (hf : ∀ e ∈ g.incoming c, p e → (if e.source.id = old then new else e.source.id) = f e) :
      ((g.incoming c).filter p).map f =
        ((g.incoming c).filter p).map fun e => if e.source.id = old then new else e.source.id :=
    List.map_congr_left fun e he =>
      (hf e (List.mem_filter.mp he).1 (by simpa using (List.mem_filter.mp he).2)).symm
  have hsource {e : Edge} (he : e ∈ g.incoming c) :
      e.source = g.place old ↔ e.source.id = old :=
    h.source_eq_place_iff hv (mem_incoming.mp he).1
  rw [operands_eq, operands_eq, List.map_map]
  refine ((byPosition_perm _).map _).trans (.trans ?_ ((byPosition_perm _).map _).symm)
  rw [incoming_redirect g hc, List.map_append, List.map_map]
  refine (((List.reverse_perm _).map _).append_right _).trans ?_
  have hfirst := hrenamed (·.source = g.place old) (fun _ => new) fun e he hp => by
    rw [if_pos ((hsource he).mp hp)]
  have hrest := hrenamed (·.source ≠ g.place old) (·.source.id) fun e he hp => by
    rw [if_neg (mt (hsource he).mpr hp)]
  change (((g.incoming c).filter (·.source = g.place old)).map (fun _ => new) ++ _).Perm _
  rw [hfirst, hrest, ← List.map_append]
  refine List.Perm.map _ ?_
  simpa using
    List.filter_append_perm (fun e : Edge => decide (e.source = g.place old)) (g.incoming c)

/-- A node reads what it read before, apart from the operand that gave way. -/
theorem Sound.mem_operands_redirect (h : g.Sound) (hv : g.hidden = []) {c o : NodeId}
    (ho : o ∈ (g.redirect old new).operands c) :
    (o ∈ g.operands c ∧ (c = new ∨ o ≠ old)) ∨ (o = new ∧ old ∈ g.operands c) := by
  by_cases hc : c = new
  · subst hc
    rw [operands_redirect_self] at ho
    exact .inl ⟨ho, .inl rfl⟩
  · obtain ⟨x, hx, rfl⟩ := List.mem_map.mp ((h.operands_redirect_perm hv hc).mem_iff.mp ho)
    split
    · next hold => exact .inr ⟨rfl, hold ▸ hx⟩
    · next hold => exact .inl ⟨hx, .inr hold⟩

theorem Ported.keepsPositions (hports : g.Ported) (h : g.Sound) (hv : g.hidden = [])
    (old new c : NodeId) : g.KeepsPositions old new c := by
  refine ⟨fun e he hid => ?_, (List.pairwise_map.mp (hports c)).imp fun hne heq => absurd heq hne⟩
  obtain ⟨-, hsource⟩ := (mem_places_of_visible hv).mp (h.sources e (mem_incoming.mp he).1)
  rw [hsource, hid]

theorem Ported.operands_redirect (hports : g.Ported) (h : g.Sound) (hv : g.hidden = [])
    (hne : old ≠ new) {c : NodeId} (hc : c ≠ new) :
    (g.redirect old new).operands c = (g.operands c).map fun o => if o = old then new else o :=
  (operands_redirect_iff hne hc).mpr (hports.keepsPositions h hv old new c)

theorem Ported.redirect (hports : g.Ported) (old new : NodeId) : (g.redirect old new).Ported := by
  intro id
  by_cases hid : id = new
  · rw [hid, incoming_redirect_self]
    exact hports new
  · rw [incoming_redirect g hid, List.map_append, List.map_map]
    refine List.Perm.nodup ?_ (hports id)
    change ((g.incoming id).map (·.position)).Perm
      (((g.incoming id).filter (·.source = g.place old)).reverse.map (·.position) ++ _)
    rw [← List.map_append]
    refine List.Perm.map _ ((List.filter_append_perm (·.source = g.place old) _).symm.trans ?_)
    refine List.Perm.append (List.reverse_perm _).symm ?_
    simp only [decide_not, List.Perm.refl]

theorem Wellformed.redirect (h : g.Wellformed) (hnew : new ∈ g.ids) :
    (g.redirect old new).Wellformed where
  toSound := h.toSound.redirect hnew
  visible := h.visible
  ports := Ported.redirect h.ports old new
  inputNodes := h.inputNodes
  outputNodes := h.outputNodes

theorem Wellformed.replaceUses (h : g.Wellformed) {n : Nat} {g' : Graph}
    (hr : g.replaceUses old new = .ok (n, g')) : g'.Wellformed := by
  obtain ⟨-, hnew, ⟨-, -, rfl⟩ | ⟨-, -, rfl⟩⟩ := replaceUses_eq_ok.mp hr
  · exact h
  · exact h.redirect hnew

theorem Named.extend (h : g.Named) {g' : Graph} (id : NodeId) (op : Operation)
    (hnodes : ∀ n ∈ g.nodes, n ∈ g'.nodes) (hnew : ⟨id, op⟩ ∈ g'.nodes) (hfree : g.Declares op)
    (hin : g'.inputs = (g.declare id op).inputs) (hout : g'.outputs = (g.declare id op).outputs) :
    g'.Named := by
  constructor
  · intro name k hk
    rw [hin] at hk
    have hold (hk : (name, k) ∈ g.inputs.entries) : ∃ type, ⟨k, .input name type⟩ ∈ g'.nodes := by
      obtain ⟨type, hn⟩ := h.inputs name k hk
      exact ⟨type, hnodes _ hn⟩
    cases op with
    | input name' type =>
      simp only [declare,
        OrderedMap.entries_insert_of_not_mem (OrderedMap.contains_eq_false.mp hfree)] at hk
      rcases List.mem_append.mp hk with hk | hk
      · exact hold hk
      · cases List.mem_singleton.mp hk
        exact ⟨type, hnew⟩
    | _ => exact hold hk
  · intro name k hk
    rw [hout] at hk
    have hold (hk : (name, k) ∈ g.outputs.entries) : ⟨k, .output name⟩ ∈ g'.nodes :=
      hnodes _ (h.outputs name k hk)
    cases op with
    | output name' =>
      simp only [declare,
        OrderedMap.entries_insert_of_not_mem (OrderedMap.contains_eq_false.mp hfree)] at hk
      rcases List.mem_append.mp hk with hk | hk
      · exact hold hk
      · cases List.mem_singleton.mp hk
        exact hnew
    | _ => exact hold hk

theorem mem_nodes_grow_of_mem (h : g.Sound) {node n : Node} {operands : List NodeId}
    (hid : node.id ∉ g.ids) (hn : n ∈ g.nodes) : n ∈ (g.grow node operands).nodes := by
  rw [grow_nodes, mem_placeNode h.ascending]
  exact .inr ⟨hn, fun heq => hid (heq ▸ mem_ids_of_mem_nodes hn)⟩

theorem mem_nodes_grow_self (h : g.Sound) (node : Node) (operands : List NodeId) :
    node ∈ (g.grow node operands).nodes := by
  rw [grow_nodes, mem_placeNode h.ascending]
  exact .inl rfl

theorem Named.grow (h : g.Named) (hg : g.Sound) {id : NodeId} {op : Operation}
    {operands : List NodeId} (hid : id ∉ g.ids) (hfree : g.Declares op) :
    ((g.grow ⟨id, op⟩ operands).declare id op).Named := by
  refine h.extend id op ?_ ?_ hfree ?_ ?_
  · intro n hn
    rw [declare_nodes]
    exact mem_nodes_grow_of_mem hg hid hn
  · rw [declare_nodes]
    exact mem_nodes_grow_self hg _ _
  · cases op <;> simp [declare]
  · cases op <;> simp [declare]

theorem Ported.grow (hports : g.Ported) (h : g.Sound) (node : Node) (operands : List NodeId) :
    (g.grow node operands).Ported := by
  intro id
  by_cases hid : id = node.id
  · subst hid
    rw [incoming_grow_self h.targets, List.map_reverse, List.nodup_reverse]
    exact List.pairwise_map.mpr ((operandEdges_pairwise ..).imp Nat.ne_of_lt)
  · rw [incoming_grow_of_ne hid]
    exact hports id

theorem Wellformed.named (h : g.Wellformed) : g.Named := ⟨h.inputNodes, h.outputNodes⟩

theorem Wellformed.grow (h : g.Wellformed) {id : NodeId} {op : Operation} {operands : List NodeId}
    (hlen : operands.length = op.arity) (hin : ∀ o ∈ operands, o ∈ g.ids) (hid : id ∉ g.ids)
    (hfree : g.Declares op) : ((g.grow ⟨id, op⟩ operands).declare id op).Wellformed := by
  have hnamed : ((g.grow ⟨id, op⟩ operands).declare id op).Named :=
    h.named.grow h.toSound hid hfree
  refine ⟨(h.toSound.grow hlen hin).declare _ _, ?_, fun k => ?_, hnamed.inputs, hnamed.outputs⟩
  · rw [declare_hidden]
    exact grow_hidden_eq_nil.mpr ⟨hid, h.visible⟩
  · have hk : ((g.grow ⟨id, op⟩ operands).declare id op).incoming k =
        (g.grow ⟨id, op⟩ operands).incoming k := by
      rw [incoming, incoming, place, place, declare_edges, declare_hidden]
    rw [hk]
    exact Ported.grow h.ports h.toSound _ _ k

theorem incoming_removeDead_sublist (g : Graph) (id : NodeId) :
    (g.removeDead.2.incoming id).Sublist (g.incoming id) :=
  List.Sublist.filter _ List.filter_sublist

theorem Named.removeDead (h : g.Named) : g.removeDead.2.Named where
  inputs name id hid := by
    obtain ⟨type, hn⟩ := h.inputs name id hid
    exact ⟨type, mem_nodes_removeDead.mpr ⟨hn, input_mem_live hid (mem_ids_of_mem_nodes hn)⟩⟩
  outputs name id hid := by
    have hn := h.outputs name id hid
    exact mem_nodes_removeDead.mpr ⟨hn, output_mem_live hid (mem_ids_of_mem_nodes hn)⟩

theorem Wellformed.removeDead (h : g.Wellformed) : g.removeDead.2.Wellformed where
  toSound := h.toSound.removeDead
  visible := h.visible
  ports id := (h.ports id).sublist ((incoming_removeDead_sublist g id).map _)
  inputNodes := h.named.removeDead.inputs
  outputNodes := h.named.removeDead.outputs

theorem addListed_named {nodes : List Node} {c c' : IdCounters} {g' : Graph} (hg : g.Bare)
    (hv : g.hidden = []) (hnamed : g.Named) (h : Runs (g.addListed nodes) c (.ok g') c') :
    g'.hidden = [] ∧ g'.Named := by
  induction nodes generalizing g c with
  | nil =>
    obtain ⟨hg', -⟩ := runs_pure.mp h
    cases hg'
    exact ⟨hv, hnamed⟩
  | cons node nodes ih =>
    obtain ⟨hid, hfree, -, hrest⟩ := addListed_cons_ok.mp h
    have hbare := hg.declare node.id node.op
    have hid' : node.id ∉ (g.declare node.id node.op).ids := by rwa [ids, declare_nodes]
    refine ih (hbare.addNode node) ?_ ?_ hrest
    · rw [addNode, if_neg (mt contains_iff.mp hid'), declare_hidden, hv]
    · refine hnamed.extend node.id node.op ?_ ?_ hfree rfl rfl
      · intro n hn
        refine (mem_placeNode hbare.ascending).mpr (.inr ⟨by rwa [declare_nodes], ?_⟩)
        intro heq
        exact hid (heq ▸ mem_ids_of_mem_nodes hn)
      · exact (mem_placeNode hbare.ascending).mpr (.inl rfl)

theorem Named.ofParts {name : String} {width : Nat} {nodes : List Node}
    {operands : List (NodeId × Nat × NodeId)} {space : IdSpace} {c c' : IdCounters}
    (h : Runs (Graph.ofParts name width nodes operands space) c (.ok g) c') : g.Named := by
  obtain ⟨-, listed, hlisted, hlinked, -⟩ := ofParts_ok.mp h
  obtain ⟨-, rfl⟩ := addOperands_eq_ok.mp hlinked
  obtain ⟨-, hnamed⟩ := addListed_named (.blank name width space) rfl
    ⟨fun _ _ h => absurd h List.not_mem_nil, fun _ _ h => absurd h List.not_mem_nil⟩ hlisted
  exact ⟨hnamed.inputs, hnamed.outputs⟩

theorem visible_ofParts {name : String} {width : Nat} {nodes : List Node}
    {operands : List (NodeId × Nat × NodeId)} {space : IdSpace} {c c' : IdCounters}
    (h : Runs (Graph.ofParts name width nodes operands space) c (.ok g) c') : g.hidden = [] := by
  obtain ⟨-, listed, hlisted, hlinked, -⟩ := ofParts_ok.mp h
  obtain ⟨-, rfl⟩ := addOperands_eq_ok.mp hlinked
  exact (addListed_named (.blank name width space) rfl
    ⟨fun _ _ h => absurd h List.not_mem_nil, fun _ _ h => absurd h List.not_mem_nil⟩ hlisted).1

theorem Reachable.named (h : g.Reachable) (hv : g.hidden = []) : g.Named := by
  induction h with
  | create h =>
    obtain ⟨-, rfl⟩ := create_ok.mp h
    exact ⟨fun _ _ h => absurd h List.not_mem_nil, fun _ _ h => absurd h List.not_mem_nil⟩
  | makeNode hg h ih =>
    obtain ⟨-, -, hfree, -, -, rfl⟩ := makeNode_ok.mp h
    rw [declare_hidden] at hv
    obtain ⟨hid, hv⟩ := grow_hidden_eq_nil.mp hv
    exact (ih hv).grow hg.sound hid hfree
  | ofParts h => exact .ofParts h
  | replaceUses _ h ih =>
    obtain ⟨_, rfl⟩ := replaceUses_frame h
    have hg := ih hv
    exact ⟨hg.inputs, hg.outputs⟩
  | removeDead _ ih => exact (ih hv).removeDead
  | rebind _ _ ih =>
    have hg := ih hv
    exact ⟨hg.inputs, hg.outputs⟩

/-- A graph that builder calls made, whatever the counters did meanwhile. -/
inductive Assembled : Graph → Prop where
  | create {name : String} {width : Nat} {space : IdSpace} {g : Graph}
      (h : Graph.create name width space = .ok g) : Assembled g
  | makeNode {g g' : Graph} {op : Operation} {operands : List NodeId} {id : NodeId}
      {c c' : IdCounters} (hg : Assembled g)
      (h : Runs (g.makeNode op operands) c (.ok (id, g')) c') : Assembled g'
  | replaceUses {g g' : Graph} {old new : NodeId} {n : Nat} (hg : Assembled g)
      (h : g.replaceUses old new = .ok (n, g')) : Assembled g'
  | removeDead {g : Graph} (hg : Assembled g) : Assembled g.removeDead.2
  | rebind {g : Graph} (hg : Assembled g) (space : IdSpace) : Assembled { g with space }

theorem Assembled.reachable (h : g.Assembled) : g.Reachable := by
  induction h with
  | create h => exact .create h
  | makeNode _ h ih => exact .makeNode ih h
  | replaceUses _ h ih => exact .replaceUses ih h
  | removeDead _ ih => exact .removeDead ih
  | rebind _ space ih => exact .rebind ih space

theorem Assembled.wellformed (h : g.Assembled) (hv : g.hidden = []) : g.Wellformed := by
  induction h with
  | create h =>
    obtain ⟨-, rfl⟩ := create_ok.mp h
    exact ⟨Sound.blank .., rfl, by simp [Graph.blank, incoming],
      fun _ _ h => absurd h List.not_mem_nil, fun _ _ h => absurd h List.not_mem_nil⟩
  | makeNode _ h ih =>
    obtain ⟨hlen, hin, hfree, -, -, rfl⟩ := makeNode_ok.mp h
    rw [declare_hidden] at hv
    obtain ⟨hid, hv⟩ := grow_hidden_eq_nil.mp hv
    exact (ih hv).grow hlen hin hid hfree
  | replaceUses _ h ih =>
    refine (ih ?_).replaceUses h
    obtain ⟨_, rfl⟩ := replaceUses_frame h
    exact hv
  | removeDead _ ih => exact (ih hv).removeDead
  | rebind _ space ih =>
    have hg := ih hv
    exact ⟨hg.of_tables rfl rfl rfl hg.inputs hg.outputs, hv, hg.ports, hg.inputNodes,
      hg.outputNodes⟩

theorem Assembled.width_pos (h : g.Assembled) : 0 < g.width := h.reachable.width_pos

/-- A graph that builder calls made, with the counters as they stand since. Other graphs may draw
from the same counter, but no counter has wrapped around. -/
inductive Built : Graph → IdCounters → Prop where
  | create {name : String} {width : Nat} {space : IdSpace} {g : Graph} {c : IdCounters}
      (h : Graph.create name width space = .ok g) (hspace : space.key < c.next.length) : Built g c
  | makeNode {g g' : Graph} {op : Operation} {operands : List NodeId} {id : NodeId}
      {c c' : IdCounters} (hg : Built g c) (hc : c.peek g.space + 1 < NodeId.bound)
      (h : Runs (g.makeNode op operands) c (.ok (id, g')) c') : Built g' c'
  | replaceUses {g g' : Graph} {old new : NodeId} {n : Nat} {c : IdCounters} (hg : Built g c)
      (h : g.replaceUses old new = .ok (n, g')) : Built g' c
  | removeDead {g : Graph} {c : IdCounters} (hg : Built g c) : Built g.removeDead.2 c
  | rebind {g : Graph} {c : IdCounters} {space : IdSpace} (hg : Built g c)
      (hspace : space.key < c.next.length) :
      Built { g with space } (c.advance space (c.peek g.space))
  | advance {g : Graph} {c c' : IdCounters} (hg : Built g c)
      (hlen : c.next.length ≤ c'.next.length) (hc : c.peek g.space ≤ c'.peek g.space) : Built g c'

end Graph

namespace IdCounters

variable {c : IdCounters} {s : IdSpace} {id : NodeId}

theorem peek_set (h : s.key < c.next.length) : (c.set s id).peek s = id := by
  simp [peek, set, h]

@[simp] theorem length_set : (c.set s id).next.length = c.next.length := by simp [set]

theorem next_of_lt (h : id + 1 < NodeId.bound) : id.next = id + 1 := Nat.mod_eq_of_lt h

end IdCounters

namespace Graph

variable {g : Graph} {c : IdCounters}

theorem Built.assembled (h : g.Built c) : g.Assembled := by
  induction h with
  | create h => exact .create h
  | makeNode _ _ h ih => exact .makeNode ih h
  | replaceUses _ h ih => exact .replaceUses ih h
  | removeDead _ ih => exact .removeDead ih
  | rebind _ _ ih => exact .rebind ih _
  | advance _ _ _ ih => exact ih

theorem Built.reachable (h : g.Built c) : g.Reachable := h.assembled.reachable

theorem Built.space_lt (h : g.Built c) : g.space.key < c.next.length := by
  induction h with
  | create h hspace =>
    obtain ⟨-, rfl⟩ := create_ok.mp h
    exact hspace
  | makeNode _ _ h ih =>
    obtain ⟨-, -, -, -, rfl, rfl⟩ := makeNode_ok.mp h
    simpa using ih
  | replaceUses _ h ih =>
    obtain ⟨_, rfl⟩ := replaceUses_frame h
    exact ih
  | removeDead _ ih => exact ih
  | rebind _ hspace _ => simpa [IdCounters.advance] using hspace
  | advance _ hlen _ ih => exact Nat.lt_of_lt_of_le ih hlen

theorem Built.id_lt (h : g.Built c) : ∀ id ∈ g.ids, id < c.peek g.space := by
  induction h with
  | create h _ =>
    obtain ⟨-, rfl⟩ := create_ok.mp h
    simp [Graph.blank, ids]
  | makeNode hg hc h ih =>
    obtain ⟨-, -, -, rfl, rfl, rfl⟩ := makeNode_ok.mp h
    intro id hid
    rw [ids, declare_nodes] at hid
    rw [declare_space, grow_space, IdCounters.peek_set hg.space_lt, IdCounters.next_of_lt hc]
    rcases mem_ids_grow.mp hid with rfl | hid
    · exact Nat.lt_succ_self _
    · exact Nat.lt_succ_of_lt (ih id hid)
  | replaceUses _ h ih =>
    obtain ⟨_, rfl⟩ := replaceUses_frame h
    exact ih
  | removeDead _ ih => exact fun id hid => ih id (ids_removeDead_sublist.subset hid)
  | rebind _ hspace ih =>
    intro id hid
    rw [IdCounters.advance, IdCounters.peek_set hspace]
    exact Nat.lt_of_lt_of_le (ih id hid) (Nat.le_max_right _ _)
  | advance _ _ hc ih => exact fun id hid => Nat.lt_of_lt_of_le (ih id hid) hc

theorem Built.visible (h : g.Built c) : g.hidden = [] := by
  induction h with
  | create h =>
    obtain ⟨-, rfl⟩ := create_ok.mp h
    rfl
  | makeNode hg _ h ih =>
    obtain ⟨-, -, -, rfl, -, rfl⟩ := makeNode_ok.mp h
    have hid : ¬ _ := fun hmem => Nat.lt_irrefl _ (hg.id_lt _ (contains_iff.mp hmem))
    rw [declare_hidden, grow_hidden, if_neg hid, ih]
  | replaceUses _ h ih =>
    obtain ⟨_, rfl⟩ := replaceUses_frame h
    exact ih
  | removeDead _ ih => exact ih
  | rebind _ _ ih => exact ih
  | advance _ _ _ ih => exact ih

theorem Built.wellformed (h : g.Built c) : g.Wellformed := h.assembled.wellformed h.visible

theorem Assembled.extend (h : g.Assembled) (c : IdCounters) (op : Operation)
    (operands : List NodeId) (hlen : operands.length = op.arity)
    (hin : ∀ o ∈ operands, o ∈ g.ids) (hfree : g.Declares op) :
    ((g.grow ⟨c.peek g.space, op⟩ operands).declare (c.peek g.space) op).Assembled :=
  .makeNode (c := c) h (makeNode_ok.mpr ⟨hlen, hin, hfree, rfl, rfl, rfl⟩)

theorem Assembled.redirect (h : g.Assembled) (old new : NodeId) (hold : old ∈ g.ids)
    (hnew : new ∈ g.ids) (hne : old ≠ new) : (g.redirect old new).Assembled :=
  .replaceUses h (replaceUses_eq_ok.mpr ⟨hold, hnew, .inr ⟨hne, rfl, rfl⟩⟩)

theorem Built.extend (h : g.Built c) (hc : c.peek g.space + 1 < NodeId.bound) (op : Operation)
    (operands : List NodeId) (hlen : operands.length = op.arity)
    (hin : ∀ o ∈ operands, o ∈ g.ids) (hfree : g.Declares op) :
    ((g.grow ⟨c.peek g.space, op⟩ operands).declare (c.peek g.space) op).Built
      (c.set g.space (c.peek g.space).next) :=
  .makeNode h hc (makeNode_ok.mpr ⟨hlen, hin, hfree, rfl, rfl, rfl⟩)

end Graph

end CipherGraph

import CipherGraph.Proofs.Compilation

/-! # Restoring what was recorded

A graph that hides no node is restored from its record node by node and edge by edge. Only the
edge list may be ordered differently; every operand list is the same, and so are the tables of
inputs and outputs. The counter of the restored graph goes on where the recorded one stood, unless
an id of the graph lies past it.
-/

namespace CipherGraph

namespace Graph

variable {g : Graph} {c : IdCounters} {space : IdSpace}

/-- Every input and output is in the tables. -/
structure Tabled (g : Graph) : Prop where
  inputs : ∀ id name type, ⟨id, .input name type⟩ ∈ g.nodes → (name, id) ∈ g.inputs.entries
  outputs : ∀ id name, ⟨id, .output name⟩ ∈ g.nodes → (name, id) ∈ g.outputs.entries

/-- A new node declares its own name and keeps those declared before. -/
theorem Tabled.extend (h : g.Tabled) {g' : Graph} {id : NodeId} {op : Operation}
    (hnodes : ∀ n ∈ g'.nodes, n = ⟨id, op⟩ ∨ n ∈ g.nodes) (hfree : g.Declares op)
    (hin : g'.inputs = (g.declare id op).inputs) (hout : g'.outputs = (g.declare id op).outputs) :
    g'.Tabled := by
  constructor
  · intro k name type hn
    rw [hin]
    rcases hnodes _ hn with heq | hn
    · cases heq
      rw [declare, OrderedMap.entries_insert_of_not_mem (OrderedMap.contains_eq_false.mp hfree)]
      simp
    · have hold := h.inputs k name type hn
      cases op with
      | input name' type' =>
        rw [declare, OrderedMap.entries_insert_of_not_mem (OrderedMap.contains_eq_false.mp hfree)]
        exact List.mem_append_left _ hold
      | _ => exact hold
  · intro k name hn
    rw [hout]
    rcases hnodes _ hn with heq | hn
    · cases heq
      rw [declare, OrderedMap.entries_insert_of_not_mem (OrderedMap.contains_eq_false.mp hfree)]
      simp
    · have hold := h.outputs k name hn
      cases op with
      | output name' =>
        rw [declare, OrderedMap.entries_insert_of_not_mem (OrderedMap.contains_eq_false.mp hfree)]
        exact List.mem_append_left _ hold
      | _ => exact hold

theorem Tabled.addListed {nodes : List Node} {c c' : IdCounters} {g' : Graph} (hg : g.Tabled)
    (hbare : g.Bare) (h : Runs (g.addListed nodes) c (.ok g') c') : g'.Tabled := by
  induction nodes generalizing g c with
  | nil =>
    obtain ⟨hg', -⟩ := runs_pure.mp h
    cases hg'
    exact hg
  | cons node nodes ih =>
    obtain ⟨-, hfree, -, hrest⟩ := addListed_cons_ok.mp h
    have hdeclared := hbare.declare node.id node.op
    have hnext : ((g.declare node.id node.op).addNode node).Tabled := by
      refine hg.extend (fun n hn => ?_) hfree rfl rfl
      rcases (mem_placeNode hdeclared.ascending).mp hn with rfl | ⟨hn, -⟩
      · exact .inl rfl
      · exact .inr (by rwa [declare_nodes] at hn)
    exact ih hnext (hdeclared.addNode node) hrest

theorem Tabled.ofParts {name : String} {width : Nat} {nodes : List Node}
    {operands : List (NodeId × Nat × NodeId)} {c c' : IdCounters}
    (h : Runs (Graph.ofParts name width nodes operands space) c (.ok g) c') : g.Tabled := by
  obtain ⟨-, listed, hlisted, hlinked, -⟩ := ofParts_ok.mp h
  obtain ⟨-, rfl⟩ := addOperands_eq_ok.mp hlinked
  have htabled := Tabled.addListed
    ⟨fun _ _ _ h => absurd h List.not_mem_nil, fun _ _ h => absurd h List.not_mem_nil⟩
    (.blank name width space) hlisted
  exact ⟨htabled.inputs, htabled.outputs⟩

theorem Reachable.tabled (h : g.Reachable) : g.Tabled := by
  induction h with
  | create h =>
    obtain ⟨-, rfl⟩ := create_ok.mp h
    exact ⟨fun _ _ _ h => absurd h List.not_mem_nil, fun _ _ h => absurd h List.not_mem_nil⟩
  | @makeNode g _ op operands id _ _ hg h ih =>
    obtain ⟨-, -, hfree, -, -, rfl⟩ := makeNode_ok.mp h
    refine @Tabled.extend _ ih _ id op (fun n hn => ?_) hfree ?_ ?_
    · rw [declare_nodes, grow_nodes] at hn
      exact ((mem_placeNode hg.sound.ascending).mp hn).imp_right And.left
    · cases op <;> simp [declare]
    · cases op <;> simp [declare]
  | ofParts h => exact .ofParts h
  | replaceUses _ h ih =>
    obtain ⟨_, rfl⟩ := replaceUses_frame h
    exact ⟨ih.inputs, ih.outputs⟩
  | removeDead _ ih =>
    exact ⟨fun id name type hn => ih.inputs id name type (mem_nodes_removeDead.mp hn).1,
      fun id name hn => ih.outputs id name (mem_nodes_removeDead.mp hn).1⟩
  | rebind _ _ ih => exact ⟨ih.inputs, ih.outputs⟩

/-- What an input adds to the table of inputs. -/
def declaredInput? : Node → Option (String × NodeId)
  | ⟨id, .input name _⟩ => some (name, id)
  | _ => none

def declaredOutput? : Node → Option (String × NodeId)
  | ⟨id, .output name⟩ => some (name, id)
  | _ => none

theorem declaredInput?_eq_some {n : Node} {name : String} {id : NodeId} :
    declaredInput? n = some (name, id) ↔ ∃ type, n = ⟨id, .input name type⟩ := by
  obtain ⟨k, op⟩ := n
  cases op <;> simp [declaredInput?, and_comm]

theorem declaredOutput?_eq_some {n : Node} {name : String} {id : NodeId} :
    declaredOutput? n = some (name, id) ↔ n = ⟨id, .output name⟩ := by
  obtain ⟨k, op⟩ := n
  cases op <;> simp [declaredOutput?, and_comm]

def inputsOf (nodes : List Node) : List (String × NodeId) := nodes.filterMap declaredInput?

def outputsOf (nodes : List Node) : List (String × NodeId) := nodes.filterMap declaredOutput?

theorem mem_inputsOf {nodes : List Node} {name : String} {id : NodeId} :
    (name, id) ∈ inputsOf nodes ↔ ∃ type, ⟨id, .input name type⟩ ∈ nodes := by
  simp only [inputsOf, List.mem_filterMap, declaredInput?_eq_some]
  exact ⟨fun ⟨_, hn, type, heq⟩ => ⟨type, heq ▸ hn⟩, fun ⟨type, hn⟩ => ⟨_, hn, type, rfl⟩⟩

theorem mem_outputsOf {nodes : List Node} {name : String} {id : NodeId} :
    (name, id) ∈ outputsOf nodes ↔ ⟨id, .output name⟩ ∈ nodes := by
  simp only [outputsOf, List.mem_filterMap, declaredOutput?_eq_some, exists_eq_right]

theorem nodup_filterMap_declared {nodes : List Node} {declared? : Node → Option (String × NodeId)}
    (hid : ∀ n name id, declared? n = some (name, id) → n.id = id)
    (hnodes : (nodes.map (·.id)).Nodup) : (nodes.filterMap declared?).Nodup := by
  refine List.pairwise_filterMap.mpr ((List.pairwise_map.mp hnodes).imp ?_)
  rintro a b hne ⟨name, id⟩ ha _ hb rfl
  exact hne ((hid a name id ha).trans (hid b name id hb).symm)

theorem placeNode_of_lt {node : Node} {l : List Node} (h : ∀ n ∈ l, n.id < node.id) :
    placeNode node l = l ++ [node] := by
  induction l with
  | nil => rfl
  | cons n l ih =>
    obtain ⟨hn, hl⟩ := List.forall_mem_cons.mp h
    rw [placeNode, if_neg (Nat.lt_asymm hn), if_neg (Nat.ne_of_gt hn), ih hl, List.cons_append]

/-- The counters after some nodes were listed on a space. -/
def advanceAll (c : IdCounters) (space : IdSpace) (nodes : List Node) : IdCounters :=
  nodes.foldl (fun c n => c.advance space (n.id + 1)) c

/-- A graph with some more nodes, the last of all, and what they declare. -/
def withListed (g : Graph) (nodes : List Node) : Graph :=
  { g with
    nodes := g.nodes ++ nodes
    inputs := ⟨g.inputs.entries ++ inputsOf nodes⟩
    outputs := ⟨g.outputs.entries ++ outputsOf nodes⟩ }

theorem withListed_append (g : Graph) (nodes nodes' : List Node) :
    (g.withListed nodes).withListed nodes' = g.withListed (nodes ++ nodes') := by
  simp [withListed, inputsOf, outputsOf]

theorem declare_addNode {id : NodeId} {op : Operation} (hlast : ∀ n ∈ g.nodes, n.id < id)
    (hfree : g.Declares op) :
    (g.declare id op).addNode ⟨id, op⟩ = g.withListed [⟨id, op⟩] := by
  have hnew : ¬g.contains id = true := fun hmem => by
    obtain ⟨n, hn, rfl⟩ := List.mem_map.mp (contains_iff.mp hmem)
    exact Nat.lt_irrefl _ (hlast n hn)
  have hrest : (g.declare id op).addNode ⟨id, op⟩ = { g with
      nodes := placeNode ⟨id, op⟩ g.nodes
      hidden := if g.contains id then id :: g.hidden else g.hidden
      inputs := (g.declare id op).inputs
      outputs := (g.declare id op).outputs } := by
    cases op <;> rfl
  have hinputs : (g.declare id op).inputs = ⟨g.inputs.entries ++ inputsOf [⟨id, op⟩]⟩ := by
    cases op with
    | input name type =>
      exact congrArg OrderedMap.mk
        (OrderedMap.entries_insert_of_not_mem (OrderedMap.contains_eq_false.mp hfree))
    | _ => exact congrArg OrderedMap.mk (List.append_nil _).symm
  have houtputs : (g.declare id op).outputs = ⟨g.outputs.entries ++ outputsOf [⟨id, op⟩]⟩ := by
    cases op with
    | output name =>
      exact congrArg OrderedMap.mk
        (OrderedMap.entries_insert_of_not_mem (OrderedMap.contains_eq_false.mp hfree))
    | _ => exact congrArg OrderedMap.mk (List.append_nil _).symm
  rw [hrest, hinputs, houtputs, placeNode_of_lt hlast, if_neg hnew]
  rfl

/-- Nodes in ascending order whose names differ are all listed, if none has the last id of all. -/
theorem runs_addListed {nodes : List Node} (hlast : ∀ n ∈ nodes, n.id + 1 < NodeId.bound)
    (hids : (g.nodes ++ nodes).Pairwise fun a b => a.id < b.id)
    (hinputs : (g.inputs.keys ++ (inputsOf nodes).map (·.1)).Nodup)
    (houtputs : (g.outputs.keys ++ (outputsOf nodes).map (·.1)).Nodup) :
    Runs (g.addListed nodes) c (.ok (g.withListed nodes)) (advanceAll c g.space nodes) := by
  induction nodes generalizing g c with
  | nil => simp [addListed, withListed, inputsOf, outputsOf, advanceAll]
  | cons node nodes ih =>
    obtain ⟨hnode, hnodes⟩ := List.forall_mem_cons.mp hlast
    have hbelow : ∀ n ∈ g.nodes, n.id < node.id := fun n hn =>
      (List.pairwise_append.mp hids).2.2 n hn _ List.mem_cons_self
    have hid : node.id ∉ g.ids := fun hmem => by
      obtain ⟨n, hn, heq⟩ := List.mem_map.mp hmem
      exact Nat.lt_irrefl _ (heq ▸ hbelow n hn)
    have hfree : g.Declares node.op := by
      obtain ⟨id, op⟩ := node
      cases op with
      | input name type =>
        refine OrderedMap.contains_eq_false.mpr fun hmem => ?_
        exact (List.nodup_append.mp hinputs).2.2 name hmem name (List.mem_map.mpr
          ⟨(name, id), mem_inputsOf.mpr ⟨type, List.mem_cons_self⟩, rfl⟩) rfl
      | output name =>
        refine OrderedMap.contains_eq_false.mpr fun hmem => ?_
        exact (List.nodup_append.mp houtputs).2.2 name hmem name (List.mem_map.mpr
          ⟨(name, id), mem_outputsOf.mpr List.mem_cons_self, rfl⟩) rfl
      | _ => trivial
    have hall : g.withListed (node :: nodes) = (g.withListed [node]).withListed nodes :=
      (withListed_append g [node] nodes).symm
    refine addListed_cons_ok.mpr ⟨hid, hfree, hnode, ?_⟩
    rw [declare_addNode hbelow hfree, hall]
    refine ih hnodes ?_ ?_ ?_
    · simpa [withListed] using hids
    · have hsplit : inputsOf (node :: nodes) = inputsOf [node] ++ inputsOf nodes :=
        List.filterMap_append (l := [node])
      simpa [withListed, hsplit, OrderedMap.keys] using hinputs
    · have hsplit : outputsOf (node :: nodes) = outputsOf [node] ++ outputsOf nodes :=
        List.filterMap_append (l := [node])
      simpa [withListed, hsplit, OrderedMap.keys] using houtputs

theorem place_of_visible (hv : g.hidden = []) (id : NodeId) : g.place id = ⟨id, 0⟩ := by
  rw [place, hv]
  rfl

/-- The edges of a record, newest first. -/
def recordedEdges (g : Graph) : List Edge :=
  (g.ids.flatMap fun id => operandEdges ⟨id, 0⟩ ((g.operands id).map (⟨·, 0⟩)) 0).reverse

theorem map_edgeOf_operandTriples {g' : Graph} (hv : g'.hidden = []) (id : NodeId) :
    (g.operandTriples id).map g'.edgeOf =
      operandEdges ⟨id, 0⟩ ((g.operands id).map (⟨·, 0⟩)) 0 := by
  have hfrom (operands : List NodeId) (position : Nat) :
      (operands.mapIdx fun i operand => (id, i + position, operand)).map g'.edgeOf =
        operandEdges ⟨id, 0⟩ (operands.map (⟨·, 0⟩)) position := by
    induction operands generalizing position with
    | nil => rfl
    | cons operand operands ih =>
      have htail := ih (position + 1)
      rw [List.mapIdx_cons, List.map_cons, List.map_cons, operandEdges, ← htail]
      simp [edgeOf, place_of_visible hv, Nat.add_assoc, Nat.add_comm 1 position]
  exact hfrom (g.operands id) 0

theorem filter_recordedEdges (hnodup : g.ids.Nodup) (id : NodeId) :
    g.recordedEdges.filter (·.target = ⟨id, 0⟩) =
      if id ∈ g.ids then
        (operandEdges ⟨id, 0⟩ ((g.operands id).map (⟨·, 0⟩)) 0).reverse
      else [] := by
  have hother (k : NodeId) (hk : k ≠ id) :
      (operandEdges ⟨k, 0⟩ ((g.operands k).map (⟨·, 0⟩)) 0).filter (·.target = ⟨id, 0⟩) = [] := by
    refine List.filter_eq_nil_iff.mpr fun e he => ?_
    rw [(target_of_mem_operandEdges he).1]
    simpa using hk
  have hown : (operandEdges ⟨id, 0⟩ ((g.operands id).map (⟨·, 0⟩)) 0).filter
      (·.target = ⟨id, 0⟩) = operandEdges ⟨id, 0⟩ ((g.operands id).map (⟨·, 0⟩)) 0 :=
    List.filter_eq_self.mpr fun e he => by simpa using (target_of_mem_operandEdges he).1
  have hall (ids : List NodeId) (hnodup : ids.Nodup) :
      (ids.flatMap fun k => operandEdges ⟨k, 0⟩ ((g.operands k).map (⟨·, 0⟩)) 0).filter
          (·.target = ⟨id, 0⟩) =
        if id ∈ ids then operandEdges ⟨id, 0⟩ ((g.operands id).map (⟨·, 0⟩)) 0 else [] := by
    induction ids with
    | nil => rfl
    | cons k ids ih =>
      obtain ⟨hk, hnodup⟩ := List.nodup_cons.mp hnodup
      rw [List.flatMap_cons, List.filter_append, ih hnodup]
      by_cases heq : k = id
      · subst heq
        rw [hown, if_neg hk, if_pos List.mem_cons_self, List.append_nil]
      · rw [hother k heq, List.nil_append]
        simp [Ne.symm heq]
  rw [recordedEdges, List.filter_reverse, hall g.ids hnodup]
  split <;> rfl

def restored (g : Graph) (space : IdSpace) : Graph where
  name := g.name
  width := g.width
  nodes := g.nodes
  hidden := []
  edges := g.recordedEdges
  inputs := ⟨inputsOf g.nodes⟩
  outputs := ⟨outputsOf g.nodes⟩
  space := space

theorem operands_restored (hg : g.Sound) (hv : g.hidden = []) (id : NodeId) :
    (g.restored space).operands id = g.operands id := by
  have hincoming : (g.restored space).incoming id = if id ∈ g.ids then
      (operandEdges ⟨id, 0⟩ ((g.operands id).map (⟨·, 0⟩)) 0).reverse else [] :=
    filter_recordedEdges hg.nodup id
  rw [operands_eq, hincoming]
  split
  · rw [byPosition_reverse (operandEdges_pairwise ..), ← Function.comp_def Place.id Edge.source,
      ← List.map_map, map_source_operandEdges, List.map_map]
    exact List.map_id _
  · next hid =>
    rw [hg.operands_of_not_mem hv hid]
    simp [byPosition]

/-- Sound graphs that hide no node, whose tables hold just their inputs and outputs. -/
structure Recordable (g : Graph) : Prop where
  sound : g.Sound
  named : g.Named
  tabled : g.Tabled
  visible : g.hidden = []
  width_pos : 0 < g.width

theorem Reachable.recordable (h : g.Reachable) (hv : g.hidden = []) : g.Recordable :=
  ⟨h.sound, h.named hv, h.tabled, hv, h.width_pos⟩

theorem Recordable.inputs_perm (h : g.Recordable) : (inputsOf g.nodes).Perm g.inputs.entries := by
  have hnodup : (inputsOf g.nodes).Nodup := by
    refine nodup_filterMap_declared (fun n name id hn => ?_) h.sound.nodup
    obtain ⟨_, rfl⟩ := declaredInput?_eq_some.mp hn
    rfl
  refine (List.perm_ext_iff_of_nodup hnodup h.sound.inputs.of_map).mpr fun ⟨name, id⟩ => ?_
  rw [mem_inputsOf]
  exact ⟨fun ⟨type, hn⟩ => h.tabled.inputs id name type hn, h.named.inputs name id⟩

theorem Recordable.outputs_perm (h : g.Recordable) :
    (outputsOf g.nodes).Perm g.outputs.entries := by
  have hnodup : (outputsOf g.nodes).Nodup := by
    refine nodup_filterMap_declared (fun n name id hn => ?_) h.sound.nodup
    rw [declaredOutput?_eq_some.mp hn]
  refine (List.perm_ext_iff_of_nodup hnodup h.sound.outputs.of_map).mpr fun ⟨name, id⟩ => ?_
  rw [mem_outputsOf]
  exact ⟨h.tabled.outputs id name, h.named.outputs name id⟩

end Graph

namespace IdCounters

theorem set_peek {c : IdCounters} {space : IdSpace} (h : space.key < c.next.length) :
    c.set space (c.peek space) = c := by
  simp [set, peek, h]

theorem set_set {c : IdCounters} {space : IdSpace} (id id' : NodeId) :
    (c.set space id).set space id' = c.set space id' := by
  simp [set]

theorem peek_append (l : List NodeId) (id : NodeId) :
    (IdCounters.mk (l ++ [id])).peek ⟨l.length⟩ = id := by
  simp [peek]

theorem peek_append_of_lt {c : IdCounters} {space : IdSpace} (h : space.key < c.next.length)
    (id : NodeId) : (IdCounters.mk (c.next ++ [id])).peek space = c.peek space := by
  simp [peek, List.getElem?_append_left h]

theorem set_append (l : List NodeId) (id id' : NodeId) :
    (IdCounters.mk (l ++ [id])).set ⟨l.length⟩ id' = ⟨l ++ [id']⟩ := by
  simp [set]

end IdCounters

namespace GraphRecord

variable {r : GraphRecord} {c c' : IdCounters}

def resumed (r : GraphRecord) : NodeId :=
  r.nodes.foldl (fun next n => max next (n.id + 1)) r.next

def BelowLast (r : GraphRecord) : Prop := ∀ n ∈ r.nodes, n.id + 1 < NodeId.bound

theorem belowLast_of_restore {g : Graph} (h : Runs r.restore c (.ok g) c') : r.BelowLast := by
  obtain ⟨space, c₁, -, h⟩ := runs_bind_ok.mp h
  obtain ⟨-, c₂, -, h⟩ := runs_bind_ok.mp h
  obtain ⟨-, listed, hlisted, -⟩ := Graph.ofParts_ok.mp h
  exact fun n hn => Graph.lt_bound_of_addListed hlisted n (List.mem_mergeSort.mpr hn)

end GraphRecord

theorem Group.belowLast_of_restoreMembers {l : List GraphRecord} {gr gr' : Group}
    {c c' : IdCounters}
    (h : Runs (l.foldlM (fun gr member => do Group.addGraph gr (← member.restore)) gr) c
      (.ok gr') c') : ∀ member ∈ l, member.BelowLast := by
  induction l generalizing gr c with
  | nil => exact fun _ hmem => absurd hmem List.not_mem_nil
  | cons member l ih =>
    rw [List.foldlM_cons] at h
    obtain ⟨next, c₂, hstep, hrest⟩ := runs_bind_ok.mp h
    obtain ⟨g, c₃, hg, -⟩ := runs_bind_ok.mp hstep
    exact List.forall_mem_cons.mpr ⟨GraphRecord.belowLast_of_restore hg, ih hrest⟩

theorem GroupRecord.belowLast_of_restore {r : GroupRecord} {gr : Group} {c c' : IdCounters}
    (h : Runs r.restore c (.ok gr) c') : ∀ member ∈ r.members, member.BelowLast := by
  obtain ⟨space, c₁, -, h⟩ := runs_bind_ok.mp h
  exact Group.belowLast_of_restoreMembers h

namespace Graph

variable {g : Graph} {c : IdCounters} {space : IdSpace}

theorem advanceAll_eq (h : space.key < c.next.length) (nodes : List Node) :
    advanceAll c space nodes =
      c.set space (nodes.foldl (fun next n => max next (n.id + 1)) (c.peek space)) := by
  induction nodes generalizing c with
  | nil => exact (IdCounters.set_peek h).symm
  | cons n nodes ih =>
    have hpeek : (c.advance space (n.id + 1)).peek space = max (c.peek space) (n.id + 1) :=
      IdCounters.peek_set h
    have hnext : advanceAll c space (n :: nodes) =
        advanceAll (c.advance space (n.id + 1)) space nodes := rfl
    rw [hnext, ih (by simpa [IdCounters.advance] using h), hpeek, IdCounters.advance,
      IdCounters.set_set, List.foldl_cons]

theorem runs_openSpace {ε : Type} {start : NodeId} :
    Runs (Allocating.openSpace start : Allocating ε IdSpace) c (.ok ⟨c.next.length⟩)
      ⟨c.next ++ [start]⟩ := rfl

/-- No node has the last id of all. -/
def BelowLast (g : Graph) : Prop := ∀ id ∈ g.ids, id + 1 < NodeId.bound

theorem belowLast_toRecord {recorded : IdCounters} :
    (g.toRecord recorded).BelowLast ↔ g.BelowLast :=
  (List.forall_mem_map (f := Node.id) (P := fun id => id + 1 < NodeId.bound)).symm

theorem Recordable.runs_restore (h : g.Recordable) (hlast : g.BelowLast) (recorded : IdCounters) :
    Runs (g.toRecord recorded).restore c (.ok (g.restored ⟨c.next.length⟩))
      ⟨c.next ++ [(g.toRecord recorded).resumed]⟩ := by
  have hsorted : g.nodes.mergeSort (fun a b => a.id ≤ b.id) = g.nodes := by
    refine List.mergeSort_of_pairwise ?_
    exact (List.pairwise_map.mp h.sound.ascending).imp fun hab => by simpa using Nat.le_of_lt hab
  have hlisted : Runs ((blank g.name g.width ⟨c.next.length⟩).addListed g.nodes)
      ⟨c.next ++ [recorded.peek g.space]⟩
      (.ok ((blank g.name g.width ⟨c.next.length⟩).withListed g.nodes))
      ⟨c.next ++ [(g.toRecord recorded).resumed]⟩ := by
    have hrun := runs_addListed (g := blank g.name g.width ⟨c.next.length⟩)
      (c := ⟨c.next ++ [recorded.peek g.space]⟩) (List.forall_mem_map.mp hlast)
      (List.pairwise_map.mp h.sound.ascending)
      ((h.inputs_perm.map _).nodup_iff.mpr h.sound.inputs)
      ((h.outputs_perm.map _).nodup_iff.mpr h.sound.outputs)
    have hspace : (blank g.name g.width ⟨c.next.length⟩).space = ⟨c.next.length⟩ := rfl
    rwa [hspace, advanceAll_eq (by simp), IdCounters.peek_append, IdCounters.set_append] at hrun
  have hlinked : ((blank g.name g.width ⟨c.next.length⟩).withListed g.nodes).addOperands
      (g.ids.flatMap g.operandTriples) = .ok (g.restored ⟨c.next.length⟩) := by
    refine addOperands_eq_ok.mpr ⟨fun t ht => ?_, ?_⟩
    · obtain ⟨id, hid, ht⟩ := List.mem_flatMap.mp ht
      obtain ⟨position, hlt, rfl⟩ := List.mem_mapIdx.mp ht
      exact ⟨hid, h.sound.mem_ids_of_mem_operands h.visible (List.getElem_mem hlt)⟩
    · rw [List.map_flatMap, List.flatMap_congr fun id _ => map_edgeOf_operandTriples rfl id]
      simp [restored, recordedEdges, withListed, blank]
  unfold GraphRecord.restore
  rw [runs_bind_of_ok runs_openSpace]
  unfold GraphRecord.restoreIn Allocating.advance
  rw [runs_modify_bind]
  refine ofParts_ok.mpr ⟨h.width_pos, _, ?_, hlinked, fun n hn => ?_⟩
  · have hnodes :
        (g.toRecord recorded).nodes.mergeSort (fun a b => a.id ≤ b.id) = g.nodes := hsorted
    rw [hnodes, IdCounters.advance, IdCounters.peek_append, Nat.max_self, IdCounters.set_append]
    exact hlisted
  · rw [operands_restored h.sound h.visible]
    exact h.sound.arity n hn

/-- Graphs that differ at most in how their edges and tables are ordered, and in their spaces. -/
structure Alike (g g' : Graph) : Prop where
  name : g'.name = g.name
  width : g'.width = g.width
  nodes : g'.nodes = g.nodes
  operands : ∀ id, g'.operands id = g.operands id
  inputs : g'.inputs.entries.Perm g.inputs.entries
  outputs : g'.outputs.entries.Perm g.outputs.entries

theorem Recordable.alike (h : g.Recordable) (space : IdSpace) : g.Alike (g.restored space) where
  name := rfl
  width := rfl
  nodes := rfl
  operands := operands_restored h.sound h.visible
  inputs := h.inputs_perm
  outputs := h.outputs_perm

structure Separate (g k : Graph) : Prop where
  ids : ∀ id ∈ k.ids, id ∉ g.ids
  inputs : ∀ name ∈ k.inputs.keys, name ∉ g.inputs.keys

theorem Recordable.mem_keys_restored (h : g.Recordable) {name : String} :
    name ∈ (g.restored space).inputs.keys ↔ name ∈ g.inputs.keys := (h.inputs_perm.map _).mem_iff

end Graph

theorem GraphRecord.resumed_eq {r : GraphRecord} (h : ∀ n ∈ r.nodes, n.id < r.next) :
    r.resumed = r.next := by
  have hfold (nodes : List Node) (hlt : ∀ n ∈ nodes, n.id < r.next) :
      nodes.foldl (fun next n => max next (n.id + 1)) r.next = r.next := by
    induction nodes with
    | nil => rfl
    | cons n nodes ih =>
      obtain ⟨hn, hnodes⟩ := List.forall_mem_cons.mp hlt
      rw [List.foldl_cons, Nat.max_eq_left hn, ih hnodes]
  exact hfold r.nodes h

def GroupRecord.resumed (r : GroupRecord) : NodeId :=
  r.members.foldl (fun next member => max next member.resumed) r.next

theorem GroupRecord.resumed_eq {r : GroupRecord}
    (h : ∀ member ∈ r.members, member.next ≤ r.next ∧ ∀ n ∈ member.nodes, n.id < member.next) :
    r.resumed = r.next := by
  have hfold (members : List GraphRecord) (hall : ∀ member ∈ members, member ∈ r.members) :
      members.foldl (fun next member => max next member.resumed) r.next = r.next := by
    induction members with
    | nil => rfl
    | cons member members ih =>
      obtain ⟨hmem, hmembers⟩ := List.forall_mem_cons.mp hall
      obtain ⟨hle, hids⟩ := h member hmem
      rw [List.foldl_cons, GraphRecord.resumed_eq hids, Nat.max_eq_left hle, ih hmembers]
  exact hfold r.members fun _ => id

theorem Graph.resumed_eq {g : Graph} {recorded : IdCounters}
    (h : ∀ id ∈ g.ids, id < recorded.peek g.space) :
    (g.toRecord recorded).resumed = recorded.peek g.space :=
  GraphRecord.resumed_eq fun _ hn => h _ (List.mem_map_of_mem hn)

theorem CompiledGroup.resumed_eq {cg : CompiledGroup} {recorded : IdCounters} {space : IdSpace}
    (hsome : cg.members.values ≠ []) (h : ∀ member ∈ cg.members.values,
      member.graph.space = space ∧ ∀ id ∈ member.graph.ids, id < recorded.peek space) :
    (cg.toRecord recorded).resumed = recorded.peek space := by
  have hmembers : ∀ r ∈ (cg.toRecord recorded).members,
      r.next = recorded.peek space ∧ ∀ n ∈ r.nodes, n.id < r.next := by
    intro r hr
    obtain ⟨member, hmember, rfl⟩ := List.mem_map.mp hr
    obtain ⟨rfl, hids⟩ := h member hmember
    exact ⟨rfl, fun n hn => hids _ (List.mem_map_of_mem hn)⟩
  have hmax (l : List NodeId) (hl : ∀ id ∈ l, id = recorded.peek space) (start : NodeId)
      (hle : start ≤ recorded.peek space) (hne : l = [] → start = recorded.peek space) :
      l.foldl max start = recorded.peek space := by
    induction l generalizing start with
    | nil => exact hne rfl
    | cons id l ih =>
      obtain ⟨rfl, hrest⟩ := List.forall_mem_cons.mp hl
      rw [List.foldl_cons, Nat.max_eq_right hle]
      exact ih hrest _ (Nat.le_refl _) fun _ => rfl
  have hnext : (cg.toRecord recorded).next = recorded.peek space := by
    refine hmax _ (fun id hid => ?_) 0 (Nat.zero_le _) fun hnil => absurd hnil (by simpa)
    obtain ⟨r, hr, rfl⟩ := List.mem_map.mp hid
    exact (hmembers r hr).1
  rw [GroupRecord.resumed_eq fun r hr => ⟨?_, (hmembers r hr).2⟩, hnext]
  exact Nat.le_of_eq ((hmembers r hr).1.trans hnext.symm)

namespace Group

variable {gr : Group} {g : Graph} {c : IdCounters}

theorem runs_addGraph (hname : g.name ∉ gr.members.keys) (hspace : g.space ≠ gr.space)
    (hseparate : ∀ k ∈ gr.graphs, k.Separate g) :
    Runs (gr.addGraph g) c
      (.ok { gr with members := gr.members.insert g.name { g with space := gr.space } })
      (c.advance gr.space (c.peek g.space)) := by
  have hcontains : gr.members.contains g.name = false := OrderedMap.contains_eq_false.mpr hname
  have hinput : gr.sharedInput? g = none := by
    refine List.find?_eq_none.mpr fun name hn hany => ?_
    obtain ⟨k, hk, hmem⟩ := List.any_eq_true.mp hany
    exact (hseparate k hk).inputs name hn (OrderedMap.contains_iff.mp hmem)
  have hid : gr.sharedId? g = none := by
    refine List.find?_eq_none.mpr fun id hid hany => ?_
    obtain ⟨k, hk, hmem⟩ := List.any_eq_true.mp hany
    exact (hseparate k hk).ids id hid (Graph.contains_iff.mp hmem)
  unfold addGraph
  simp only [hcontains, hinput, hspace, hid, Bool.false_eq_true, ↓reduceIte]
  exact (runs_bind_of_ok (runs_liftM_state.mpr ⟨rfl, rfl⟩)).mpr (runs_pure.mpr ⟨rfl, rfl⟩)

theorem runs_restoreMember (recorded : IdCounters) (hg : g.Recordable) (hlast : g.BelowLast)
    (hspace : gr.space.key < c.next.length) (hname : g.name ∉ gr.members.keys)
    (hseparate : ∀ k ∈ gr.graphs, k.Separate g) :
    ∃ c', Runs (do addGraph gr (← (g.toRecord recorded).restore)) c
        (.ok { gr with
          members := ⟨gr.members.entries ++ [(g.name, g.restored gr.space)]⟩ }) c' ∧
      gr.space.key < c'.next.length ∧
      c'.peek gr.space = max (c.peek gr.space) (g.toRecord recorded).resumed := by
  have hother : (⟨c.next.length⟩ : IdSpace) ≠ gr.space := fun heq =>
    Nat.lt_irrefl _ (heq ▸ hspace : (⟨c.next.length⟩ : IdSpace).key < c.next.length)
  have hjoins := runs_addGraph (g := g.restored ⟨c.next.length⟩)
    (c := ⟨c.next ++ [(g.toRecord recorded).resumed]⟩) hname hother fun k hk =>
      ⟨(hseparate k hk).ids, fun name hn =>
        (hseparate k hk).inputs name (hg.mem_keys_restored.mp hn)⟩
  have hentries : gr.members.insert g.name (g.restored gr.space) =
      ⟨gr.members.entries ++ [(g.name, g.restored gr.space)]⟩ :=
    congrArg OrderedMap.mk (OrderedMap.entries_insert_of_not_mem hname)
  have hlength : gr.space.key <
      (IdCounters.mk (c.next ++ [(g.toRecord recorded).resumed])).next.length := by
    simpa using Nat.lt_succ_of_lt hspace
  have hpeek : IdCounters.peek ⟨c.next ++ [(g.toRecord recorded).resumed]⟩ gr.space =
      c.peek gr.space := by
    simp [IdCounters.peek, List.getElem?_append_left hspace]
  refine ⟨_, (runs_bind_of_ok (hg.runs_restore hlast recorded)).mpr (hentries ▸ hjoins), ?_, ?_⟩
  · simpa [IdCounters.advance] using hlength
  · rw [IdCounters.advance, IdCounters.peek_set hlength, hpeek]
    exact congrArg _ (IdCounters.peek_append ..)

theorem runs_restoreMembers {l : List Graph} (recorded : IdCounters)
    (hgraphs : ∀ g ∈ l, g.Recordable ∧ g.BelowLast) (hspace : gr.space.key < c.next.length)
    (hnames : (gr.members.keys ++ l.map (·.name)).Nodup)
    (hold : ∀ k ∈ gr.graphs, ∀ g ∈ l, k.Separate g) (hnew : l.Pairwise Graph.Separate) :
    ∃ c', Runs ((l.map (·.toRecord recorded)).foldlM
        (fun gr member => do addGraph gr (← member.restore)) gr) c
      (.ok { gr with
        members := ⟨gr.members.entries ++ l.map fun g => (g.name, g.restored gr.space)⟩ }) c' ∧
      c'.peek gr.space = (l.map (·.toRecord recorded)).foldl
        (fun next member => max next member.resumed) (c.peek gr.space) := by
  induction l generalizing gr c with
  | nil => exact ⟨c, runs_pure.mpr ⟨by simp, rfl⟩, rfl⟩
  | cons g l ih =>
    obtain ⟨⟨hg, hlast⟩, hgraphs⟩ := List.forall_mem_cons.mp hgraphs
    obtain ⟨hfirst, hnew⟩ := List.pairwise_cons.mp hnew
    have hname : g.name ∉ gr.members.keys := fun hmem =>
      (List.nodup_append.mp hnames).2.2 g.name hmem g.name (by simp) rfl
    obtain ⟨c₁, hstep, hspace₁, hpeek₁⟩ := runs_restoreMember recorded hg hlast hspace hname
      fun k hk => hold k hk g List.mem_cons_self
    obtain ⟨c', hrest, hpeek⟩ := @ih
      { gr with members := ⟨gr.members.entries ++ [(g.name, g.restored gr.space)]⟩ } c₁
      hgraphs hspace₁ (by simpa [OrderedMap.keys] using hnames) (fun k hk g' hg' => by
        rw [graphs, OrderedMap.values, List.map_append, List.mem_append] at hk
        rcases hk with hk | hk
        · exact hold k hk g' (List.mem_cons_of_mem _ hg')
        · cases List.mem_singleton.mp hk
          exact ⟨(hfirst g' hg').ids, fun name hn hmem =>
            (hfirst g' hg').inputs name hn (hg.mem_keys_restored.mp hmem)⟩) hnew
    refine ⟨c', ?_, ?_⟩
    · rw [List.map_cons, List.foldlM_cons, runs_bind_of_ok hstep]
      simpa using hrest
    · rw [hpeek, hpeek₁, List.map_cons, List.foldl_cons]

end Group

/-- The record of a compiled group is restored to a group of graphs like the compiled ones, in the
same order and under the same names. -/
theorem CompiledGroup.runs_restore {cg : CompiledGroup} {c : IdCounters} (recorded : IdCounters)
    (hmembers : ∀ m ∈ cg.members.values, m.graph.Recordable ∧ m.graph.BelowLast)
    (hnames : (cg.members.values.map (·.graph.name)).Nodup)
    (hseparate : (cg.members.values.map (·.graph)).Pairwise Graph.Separate) :
    ∃ c', Runs (cg.toRecord recorded).restore c
      (.ok ⟨cg.name, ⟨c.next.length⟩, ⟨cg.members.values.map fun m =>
        (m.graph.name, m.graph.restored ⟨c.next.length⟩)⟩⟩) c' ∧
      c'.peek ⟨c.next.length⟩ = (cg.toRecord recorded).resumed := by
  have hrecords : (cg.toRecord recorded).members =
      (cg.members.values.map (·.graph)).map (·.toRecord recorded) := by
    rw [List.map_map]
    rfl
  obtain ⟨c', hrun, hpeek⟩ := @Group.runs_restoreMembers
    (Group.create cg.name ⟨c.next.length⟩) ⟨c.next ++ [(cg.toRecord recorded).next]⟩
    (cg.members.values.map (·.graph)) recorded
    (by simpa using hmembers) (by simp [Group.create])
    (by simpa [Group.create, OrderedMap.keys, EmptyCollection.emptyCollection, OrderedMap.empty,
      Function.comp_def] using hnames)
    (fun k hk => absurd hk List.not_mem_nil) hseparate
  refine ⟨c', ?_, ?_⟩
  · have hname : (cg.toRecord recorded).name = cg.name := rfl
    unfold GroupRecord.restore
    rw [runs_bind_of_ok Graph.runs_openSpace, hrecords, hname]
    simpa [Group.create, EmptyCollection.emptyCollection, OrderedMap.empty, Function.comp_def]
      using hrun
  · rw [GroupRecord.resumed, hrecords]
    refine hpeek.trans (congrArg (fun next => List.foldl _ next _) ?_)
    exact IdCounters.peek_append ..

end CipherGraph

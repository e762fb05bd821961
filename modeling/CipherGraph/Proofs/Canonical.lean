import CipherGraph.Proofs.Integrity
import Mathlib.Order.Bounds.Defs
import Mathlib.Order.Nat

/-! # Canonical records

A record need not come from a graph: its nodes may be in any order, the positions of its triples
may have gaps and repetitions, and its next id may be one of a node. It is restored if its nodes
and triples fit together. The graph is then recorded in a form that is restored as it stands.
-/

namespace CipherGraph

variable {c c' : IdCounters}

namespace GraphRecord

variable {r : GraphRecord} {space : IdSpace} {g : Graph}

open CipherGraph.Graph (inputsOf outputsOf)

/-- Ids and names are borne once, and every node has as many triples as it takes operands. -/
structure Wellformed (r : GraphRecord) : Prop where
  width_pos : 0 < r.width
  ids : (r.nodes.map (·.id)).Nodup
  inputNames : ((inputsOf r.nodes).map (·.1)).Nodup
  outputNames : ((outputsOf r.nodes).map (·.1)).Nodup
  consumers : ∀ t ∈ r.operands, t.1 ∈ r.nodes.map (·.id)
  operands : ∀ t ∈ r.operands, t.2.2 ∈ r.nodes.map (·.id)
  arity : ∀ n ∈ r.nodes, (r.operands.filter (·.1 = n.id)).length = n.op.arity

/-- The nodes in the order in which they are listed. -/
def sorted (r : GraphRecord) : List Node := r.nodes.mergeSort fun a b => a.id ≤ b.id

theorem sorted_perm (r : GraphRecord) : r.sorted.Perm r.nodes := List.mergeSort_perm ..

theorem sorted_pairwise (r : GraphRecord) : r.sorted.Pairwise (·.id ≤ ·.id) :=
  Graph.pairwise_mergeSort_id r.nodes

theorem Wellformed.ascending (h : r.Wellformed) : r.sorted.Pairwise (·.id < ·.id) := by
  have hne := List.pairwise_map.mp ((r.sorted_perm.map (·.id)).nodup_iff.mpr h.ids)
  exact (r.sorted_pairwise.and hne).imp fun ⟨hle, hne⟩ => Nat.lt_of_le_of_ne hle hne

/-- The edge of a triple, where no node is hidden. -/
def edge (t : NodeId × Nat × NodeId) : Edge := ⟨⟨t.2.2, 0⟩, ⟨t.1, 0⟩, t.2.1⟩

def graph (r : GraphRecord) (space : IdSpace) : Graph where
  name := r.name
  width := r.width
  nodes := r.sorted
  hidden := []
  edges := (r.operands.map edge).reverse
  inputs := ⟨inputsOf r.sorted⟩
  outputs := ⟨outputsOf r.sorted⟩
  space := space

theorem incoming_graph (id : NodeId) :
    (r.graph space).incoming id = ((r.operands.filter (·.1 = id)).map edge).reverse := by
  have hplace : (r.graph space).place id = ⟨id, 0⟩ := Graph.place_of_visible rfl id
  have hkept : (r.operands.map edge).filter (·.target = ⟨id, 0⟩) =
      (r.operands.filter (·.1 = id)).map edge := by
    rw [List.filter_map]
    exact congrArg (List.map edge) (List.filter_congr fun t _ => by simp [edge])
  rw [Graph.incoming, hplace, graph, List.filter_reverse, hkept]

theorem length_operands_graph (id : NodeId) :
    ((r.graph space).operands id).length = (r.operands.filter (·.1 = id)).length := by
  rw [Graph.length_operands, incoming_graph, List.length_reverse, List.length_map]

theorem addOperands_listed :
    ((Graph.blank r.name r.width space).withListed r.sorted).addOperands r.operands = .ok g ↔
      (∀ t ∈ r.operands, t.1 ∈ r.nodes.map (·.id) ∧ t.2.2 ∈ r.nodes.map (·.id)) ∧
        g = r.graph space := by
  have hedges : ((Graph.blank r.name r.width space).withListed r.sorted).edgeOf = edge := rfl
  have hids {id : NodeId} : id ∈ ((Graph.blank r.name r.width space).withListed r.sorted).ids ↔
      id ∈ r.nodes.map (·.id) := (r.sorted_perm.map (·.id)).mem_iff
  rw [Graph.addOperands_eq_ok, hedges]
  simp only [hids]
  refine and_congr_right fun _ => ?_
  simp [graph, Graph.withListed, Graph.blank]

theorem foldl_next_perm {nodes nodes' : List Node} (h : nodes.Perm nodes') (start : NodeId) :
    nodes.foldl (fun next n => max next (n.id + 1)) start =
      nodes'.foldl (fun next n => max next (n.id + 1)) start :=
  h.foldl_eq' (fun _ _ _ _ _ => Nat.max_right_comm ..) start

theorem Wellformed.runs_restore (h : r.Wellformed) (hlast : r.BelowLast) :
    Runs r.restore c (.ok (r.graph ⟨c.next.length⟩)) ⟨c.next ++ [r.resumed]⟩ := by
  have hlisted : Runs ((Graph.blank r.name r.width ⟨c.next.length⟩).addListed r.sorted)
      ⟨c.next ++ [r.next]⟩ _ _ := Graph.runs_addListed
    (fun n hn => hlast n (r.sorted_perm.mem_iff.mp hn)) h.ascending
    (((r.sorted_perm.filterMap _).map _).nodup_iff.mpr h.inputNames)
    (((r.sorted_perm.filterMap _).map _).nodup_iff.mpr h.outputNames)
  have hspace : (Graph.blank r.name r.width ⟨c.next.length⟩).space = ⟨c.next.length⟩ := rfl
  rw [hspace, Graph.advanceAll_eq (by simp), IdCounters.peek_append, IdCounters.set_append,
    foldl_next_perm r.sorted_perm] at hlisted
  unfold restore restoreIn Allocating.advance
  rw [runs_bind_of_ok Graph.runs_openSpace, runs_modify_bind]
  refine Graph.ofParts_ok.mpr ⟨h.width_pos, _, ?_, addOperands_listed.mpr
    ⟨fun t ht => ⟨h.consumers t ht, h.operands t ht⟩, rfl⟩, fun n hn => ?_⟩
  · rw [IdCounters.advance, IdCounters.peek_append, Nat.max_self, IdCounters.set_append]
    exact hlisted
  · rw [length_operands_graph]
    exact h.arity n (r.sorted_perm.mem_iff.mp hn)

theorem wellformed_of_restore (h : Runs r.restore c (.ok g) c') : r.Wellformed := by
  unfold restore restoreIn Allocating.advance at h
  rw [runs_bind_of_ok Graph.runs_openSpace, runs_modify_bind] at h
  have hsound := Graph.Sound.ofParts h
  obtain ⟨hwidth, listed, hlisted, hlinked, harity⟩ := Graph.ofParts_ok.mp h
  obtain rfl := Graph.addListed_eq_withListed r.sorted_pairwise
    (fun _ hn => absurd hn List.not_mem_nil) hlisted
  obtain ⟨hmem, rfl⟩ := addOperands_listed.mp hlinked
  have hkeys (declared? : Node → Option (String × NodeId)) :
      ((r.sorted.filterMap declared?).map (·.1)).Perm ((r.nodes.filterMap declared?).map (·.1)) :=
    (r.sorted_perm.filterMap _).map _
  have hids : (r.sorted.map (·.id)).Nodup := hsound.nodup
  have hinputs : ((inputsOf r.sorted).map (·.1)).Nodup := hsound.inputs
  have houtputs : ((outputsOf r.sorted).map (·.1)).Nodup := hsound.outputs
  refine ⟨hwidth, (r.sorted_perm.map (·.id)).nodup_iff.mp hids,
    (hkeys _).nodup_iff.mp hinputs, (hkeys _).nodup_iff.mp houtputs, fun t ht => (hmem t ht).1,
    fun t ht => (hmem t ht).2, fun n hn => ?_⟩
  have hlength : ((r.graph ⟨c.next.length⟩).operands n.id).length =
      (r.operands.filter (·.1 = n.id)).length := length_operands_graph n.id
  exact hlength ▸ harity n (r.sorted_perm.mem_iff.mpr hn)

theorem restore_ok : Runs r.restore c (.ok g) c' ↔
    (r.Wellformed ∧ r.BelowLast) ∧ g = r.graph ⟨c.next.length⟩ ∧
      c' = ⟨c.next ++ [r.resumed]⟩ := by
  constructor
  · intro h
    have hwell := wellformed_of_restore h
    have hlast := belowLast_of_restore h
    obtain ⟨heq, rfl⟩ := h.unique (hwell.runs_restore hlast)
    exact ⟨⟨hwell, hlast⟩, Except.ok.inj heq, rfl⟩
  · rintro ⟨⟨hwell, hlast⟩, rfl, rfl⟩
    exact hwell.runs_restore hlast

/-- What a node reads in a record: by position, and at one position the later triple first. -/
def Reads (r : GraphRecord) (id : NodeId) (operands : List NodeId) : Prop :=
  ∃ l : List (Nat × NodeId), l.Pairwise (·.1 ≤ ·.1) ∧
    (∀ p, l.filter (·.1 = p) =
      ((r.operands.filter fun t => t.1 = id ∧ t.2.1 = p).map (·.2)).reverse) ∧
    operands = l.map (·.2)

theorem Reads.unique {id : NodeId} {l l' : List NodeId} (h : r.Reads id l) (h' : r.Reads id l') :
    l = l' := by
  obtain ⟨s, hs, hread, rfl⟩ := h
  obtain ⟨s', hs', hread', rfl⟩ := h'
  rw [eq_of_filter_key_eq hs hs' fun p => (hread p).trans (hread' p).symm]

theorem reads_graph (id : NodeId) : r.Reads id ((r.graph space).operands id) := by
  refine ⟨(byPosition ((r.graph space).incoming id)).map fun e => (e.position, e.source.id),
    pairwise_pair_byPosition _ _, fun p => ?_, ?_⟩
  · have hat : atPosition p ((r.graph space).incoming id) =
        ((r.operands.filter fun t => t.1 = id ∧ t.2.1 = p).map edge).reverse := by
      rw [incoming_graph, atPosition, List.filter_reverse, List.filter_map, List.filter_filter]
      refine congrArg (fun l => (List.map edge l).reverse) (List.filter_congr fun t _ => ?_)
      rw [Bool.decide_and]
      exact Bool.and_comm ..
    rw [filter_pair_byPosition, hat, List.map_reverse, List.map_map]
    rfl
  · rw [Graph.operands_eq, List.map_map]
    rfl

/-- A record in canonical form describes the same nodes and the same readings: nodes ascend, the
operands of each are numbered in their order, and the next id is the first that will do. -/
structure Settles (r r' : GraphRecord) : Prop where
  name : r'.name = r.name
  width : r'.width = r.width
  nodes_perm : r'.nodes.Perm r.nodes
  nodes_ascend : r'.nodes.Pairwise (·.id < ·.id)
  operands : ∃ operands : NodeId → List NodeId, (∀ n ∈ r.nodes, r.Reads n.id (operands n.id)) ∧
    r'.operands = r'.nodes.flatMap fun n => (operands n.id).mapIdx fun i o => (n.id, i, o)
  next : IsLeast {id | r.next ≤ id ∧ ∀ n ∈ r.nodes, n.id < id} r'.next

/-- Where the counter stands is the first id past the recorded one and those of the nodes. -/
theorem resumed_le_iff {id : NodeId} :
    r.resumed ≤ id ↔ r.next ≤ id ∧ ∀ n ∈ r.nodes, n.id < id := by
  have hfold (nodes : List Node) (start : NodeId) :
      nodes.foldl (fun next n => max next (n.id + 1)) start ≤ id ↔
        start ≤ id ∧ ∀ n ∈ nodes, n.id < id := by
    induction nodes generalizing start with
    | nil => simp
    | cons n nodes ih =>
      rw [List.foldl_cons, ih, Nat.max_le, List.forall_mem_cons, and_assoc, Nat.succ_le_iff]
  exact hfold r.nodes r.next

theorem Wellformed.settles (h : r.Wellformed) {c : IdCounters} (hc : c.peek space = r.resumed) :
    r.Settles ((r.graph space).toRecord c) where
  name := rfl
  width := rfl
  nodes_perm := r.sorted_perm
  nodes_ascend := h.ascending
  operands := ⟨(r.graph space).operands, fun n _ => reads_graph n.id, List.flatMap_map ..⟩
  next := by
    have hnext : ((r.graph space).toRecord c).next = r.resumed := hc
    rw [hnext]
    exact ⟨resumed_le_iff.mp (Nat.le_refl _), fun _ hid => resumed_le_iff.mpr hid⟩

end GraphRecord

namespace Graph

variable {g : Graph} {recorded : IdCounters}

/-- A restored graph has the record it was restored from, but for the next id. -/
theorem toRecord_restored (h : g.Recordable) (recorded : IdCounters) (space : IdSpace)
    (c : IdCounters) :
    (g.restored space).toRecord c =
      { g.toRecord recorded with next := c.peek space } := by
  have htriples : (g.restored space).operandTriples = g.operandTriples := by
    funext id
    rw [operandTriples, operands_restored h.sound h.visible, operandTriples]
  have hids : (g.restored space).ids = g.ids := rfl
  rw [toRecord, htriples, hids]
  rfl

end Graph

/-- A record is restored just if it is well-formed and no node has the last id of all, and the
restored graph is recorded in canonical form. From the record of a graph whose ids are drawn one
after the other, that graph comes back, with its counter; from the record of any other graph that
hides no node and has not that id, all but the order of its tables and its counter. -/
theorem canonical_records (c : IdCounters) :
    (∀ r : GraphRecord,
      ((∃ g c', Runs r.restore c (.ok g) c') ↔ r.Wellformed ∧ r.BelowLast) ∧
        ∀ g c', Runs r.restore c (.ok g) c' → r.Settles (g.toRecord c')) ∧
    (∀ (g : Graph) (recorded : IdCounters), g.Drawn recorded →
      ∃ g' c', Runs (g.toRecord recorded).restore c (.ok g') c' ∧
        g'.name = g.name ∧ g'.width = g.width ∧ g'.nodes = g.nodes ∧
        (∀ id, g'.operands id = g.operands id) ∧ g'.inputs = g.inputs ∧ g'.outputs = g.outputs ∧
        c'.peek g'.space = recorded.peek g.space ∧
        g'.toRecord c' = g.toRecord recorded) ∧
    (∀ (g : Graph) (recorded : IdCounters), g.Reachable → g.hidden = [] →
      ((∃ g' c', Runs (g.toRecord recorded).restore c (.ok g') c') ↔ g.BelowLast) ∧
        ∀ g' c', Runs (g.toRecord recorded).restore c (.ok g') c' → g.Alike g' ∧
          g'.toRecord c' = { g.toRecord recorded with next := c'.peek g'.space }) := by
  refine ⟨fun r => ⟨⟨?_, ?_⟩, ?_⟩, fun g recorded hg => ?_, fun g recorded hg hv => ?_⟩
  · rintro ⟨g, c', h⟩
    exact (GraphRecord.restore_ok.mp h).1
  · exact fun ⟨h, hlast⟩ => ⟨_, _, h.runs_restore hlast⟩
  · intro g c' h
    obtain ⟨⟨hwell, -⟩, rfl, rfl⟩ := GraphRecord.restore_ok.mp h
    exact hwell.settles (IdCounters.peek_append ..)
  · have hintact := hg.intact
    have hrecordable := hg.reachable.recordable hintact.visible
    have hnext : (g.toRecord recorded).resumed = recorded.peek g.space :=
      Graph.resumed_eq hintact.below
    have hpeek : IdCounters.peek ⟨c.next ++ [(g.toRecord recorded).resumed]⟩ ⟨c.next.length⟩ =
        recorded.peek g.space := (IdCounters.peek_append ..).trans hnext
    refine ⟨_, _, hrecordable.runs_restore hg.belowLast recorded, rfl, rfl, rfl,
      Graph.operands_restored hrecordable.sound hrecordable.visible, ?_, ?_, hpeek, ?_⟩
    · exact congrArg OrderedMap.mk hintact.inputs.symm
    · exact congrArg OrderedMap.mk hintact.outputs.symm
    · rw [Graph.toRecord_restored hrecordable recorded, hpeek]
      rfl
  · have hrecordable := hg.recordable hv
    have hrestored {g' : Graph} {c' : IdCounters}
        (h : Runs (g.toRecord recorded).restore c (.ok g') c') : g.BelowLast :=
      Graph.belowLast_toRecord.mp (GraphRecord.belowLast_of_restore h)
    refine ⟨⟨fun ⟨_, _, h⟩ => hrestored h, fun hlast =>
      ⟨_, _, hrecordable.runs_restore hlast recorded⟩⟩, fun g' c' h => ?_⟩
    obtain ⟨heq, rfl⟩ := h.unique (hrecordable.runs_restore (hrestored h) recorded)
    cases heq
    exact ⟨hrecordable.alike _, Graph.toRecord_restored hrecordable recorded ..⟩

/-- Triples out of order, with a gap in the positions and a next id that is taken: `x - y`, as the
later triple of position 7 counts as the first operand. -/
def unsettled : GraphRecord where
  name := "d"
  width := 1
  next := 2
  nodes :=
    [⟨4, .output "z"⟩, ⟨2, .input "y" .cipher⟩, ⟨3, .arithmetic .sub⟩, ⟨0, .input "x" .cipher⟩]
  operands := [(3, 7, 2), (4, 1, 3), (3, 7, 0)]

def settled : GraphRecord where
  name := "d"
  width := 1
  next := 5
  nodes :=
    [⟨0, .input "x" .cipher⟩, ⟨2, .input "y" .cipher⟩, ⟨3, .arithmetic .sub⟩, ⟨4, .output "z"⟩]
  operands := [(3, 0, 0), (3, 1, 2), (4, 0, 3)]

theorem canonical_records_settled :
    (unsettled.Wellformed ∧ unsettled.BelowLast) ∧ unsettled.Settles settled ∧
      ∃ g' c', Runs (Graph.doubled.toRecord ⟨[3]⟩).restore ⟨[]⟩ (.ok g') c' ∧
        g'.inputs = Graph.doubled.inputs ∧ g'.toRecord c' = Graph.doubled.toRecord ⟨[3]⟩ := by
  obtain ⟨hrecords, hdrawn, -⟩ := canonical_records ⟨[]⟩
  obtain ⟨haccept, hsettle⟩ := hrecords unsettled
  have hrun : Runs unsettled.restore ⟨[]⟩ (.ok (unsettled.graph ⟨0⟩)) ⟨[5]⟩ := by
    unfold Runs
    cbv
  have hrecord : (unsettled.graph ⟨0⟩).toRecord ⟨[5]⟩ = settled := by cbv
  obtain ⟨g', d', hback, -, -, -, -, hinputs, -, -, hsame⟩ :=
    hdrawn Graph.doubled ⟨[3]⟩ Graph.drawn_doubled
  exact ⟨haccept.mp ⟨_, _, hrun⟩, hrecord ▸ hsettle _ _ hrun, g', d', hback, hinputs, hsame⟩

/-- An input alone, whose id is the least of all. -/
def lone : Graph :=
  { Graph.blank "w" 1 ⟨0⟩ with
    nodes := [⟨0, .input "x" .cipher⟩]
    inputs := ⟨[("x", 0)]⟩ }

/-- Once the last id of all has been handed out, the next is 0. A graph whose node has that id comes
back with another next id. -/
theorem next_of_lone :
    Runs (do
        let g ← GraphRecord.restore ⟨"w", 1, 2 ^ 64 - 1, lone.nodes, []⟩
        let (_, g) ← g.negate 0
        return g.removeDead.2) ⟨[]⟩ (.ok lone) ⟨[0]⟩ ∧
      Runs (lone.toRecord ⟨[0]⟩).restore ⟨[0]⟩ (.ok { lone with space := ⟨1⟩ }) ⟨[0, 1]⟩ ∧
      (lone.toRecord ⟨[0]⟩).next = 0 ∧ ({ lone with space := ⟨1⟩ }.toRecord ⟨[0, 1]⟩).next = 1 := by
  unfold Runs
  refine ⟨?_, ?_, ?_, ?_⟩ <;> with_unfolding_all rfl

end CipherGraph

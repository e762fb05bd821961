import CipherGraph.Proofs.Acyclicity
import CipherGraph.Proofs.Records

/-! # What a removal keeps

The nodes that stay are the inputs, the outputs and what the outputs depend on, with the operands
they had, so that every output still stands for the same expression. A graph may be cyclic: then an
expression does not end, and it is the same to any depth.
-/

namespace CipherGraph

inductive Expression where
  | cut
  | apply (op : Operation) (operands : List Expression)

namespace Graph

open Relation

variable {g : Graph} {n : Node} {id o : NodeId}

/-- What a node stands for, to a depth. -/
def expression (g : Graph) : Nat → NodeId → Expression
  | 0, _ => .cut
  | depth + 1, id =>
    match g.op? id with
    | .ok op => .apply op ((g.operands id).map (g.expression depth))
    | .error _ => .cut

/-- A node that an output depends on. -/
def Read (g : Graph) (id : NodeId) : Prop :=
  ∃ out name, ⟨out, .output name⟩ ∈ g.nodes ∧ TransGen (fun o k => o ∈ g.operands k) id out

/-- An input, an output, or a node that an output depends on. -/
def Needed (g : Graph) (n : Node) : Prop :=
  (∃ name type, n.op = .input name type) ∨ (∃ name, n.op = .output name) ∨ g.Read n.id

theorem operand_mem_live (h : g.Sound) (hv : g.hidden = []) (ho : o ∈ g.operands id)
    (hid : g.place id ∈ g.live) : g.place o ∈ g.live := by
  obtain ⟨e, he, hsource, htarget⟩ := (h.mem_operands_iff hv).mp ho
  rw [← hsource]
  exact source_mem_live he (htarget ▸ hid)

theorem Needed.read_of_operand (h : g.Sound) (hn : n ∈ g.nodes) (hneeded : g.Needed n)
    (ho : o ∈ g.operands n.id) : g.Read o := by
  rcases hneeded with ⟨name, type, hop⟩ | ⟨name, hop⟩ | ⟨out, name, hout, hpath⟩
  · have hlength := h.arity n hn
    rw [hop, Operation.arity, List.length_eq_zero_iff] at hlength
    rw [hlength] at ho
    cases ho
  · exact ⟨n.id, name, hop ▸ hn, .single ho⟩
  · exact ⟨out, name, hout, .head ho hpath⟩

theorem needed_of_live (hg : g.Reachable) (hv : g.hidden = []) (hn : n ∈ g.nodes)
    (hlive : g.place n.id ∈ g.live) : g.Needed n := by
  have h := hg.sound
  have hnamed := hg.named hv
  have hheld : ∀ p ∈ g.live, ∃ n ∈ g.nodes, p = g.place n.id ∧ g.Needed n := by
    apply reaching_subset
    · intro p hp
      obtain ⟨id, hid, rfl⟩ := List.mem_map.mp hp
      rcases List.mem_append.mp (List.mem_filter.mp hid).1 with hid | hid
      · obtain ⟨⟨name, _⟩, hentry, rfl⟩ := List.mem_map.mp hid
        exact ⟨_, hnamed.outputs name _ hentry, rfl, .inr (.inl ⟨name, rfl⟩)⟩
      · obtain ⟨⟨name, _⟩, hentry, rfl⟩ := List.mem_map.mp hid
        obtain ⟨type, hnode⟩ := hnamed.inputs name _ hentry
        exact ⟨_, hnode, rfl, .inl ⟨name, type, rfl⟩⟩
    · rintro e he ⟨n, hn, htarget, hneeded⟩
      have hsource := (mem_places_of_visible hv).mp (h.sources e he)
      obtain ⟨op, hop⟩ := exists_node_of_mem_ids hsource.1
      refine ⟨_, hop, hsource.2, .inr (.inr (hneeded.read_of_operand h hn ?_))⟩
      exact (h.mem_operands_iff hv).mpr ⟨e, he, hsource.2, htarget⟩
  obtain ⟨n', hn', hplace, hneeded⟩ := hheld _ hlive
  cases h.node_eq hn hn' (congrArg Place.id hplace)
  exact hneeded

theorem live_of_needed (hg : g.Reachable) (hv : g.hidden = []) (hn : n ∈ g.nodes)
    (hneeded : g.Needed n) : g.place n.id ∈ g.live := by
  have htabled := hg.tabled
  rcases hneeded with ⟨name, type, hop⟩ | ⟨name, hop⟩ | ⟨out, name, hout, hpath⟩
  · exact input_mem_live (htabled.inputs n.id name type (hop ▸ hn)) (mem_ids_of_mem_nodes hn)
  · exact output_mem_live (htabled.outputs n.id name (hop ▸ hn)) (mem_ids_of_mem_nodes hn)
  · have hlive := output_mem_live (htabled.outputs out name hout) (mem_ids_of_mem_nodes hout)
    generalize n.id = id at hpath
    induction hpath using TransGen.head_induction_on with
    | single ho => exact operand_mem_live hg.sound hv ho hlive
    | head ho _ ih => exact operand_mem_live hg.sound hv ho ih

theorem nodeCount_removeDead (g : Graph) :
    g.removeDead.1 + g.removeDead.2.nodeCount = g.nodeCount := by
  have hsplit := List.length_eq_length_filter_add (l := g.nodes)
    fun n => g.live.contains (g.place n.id)
  simp only [removeDead, nodeCount, List.length_map]
  omega

theorem op?_removeDead (h : g.Sound) (hid : g.place id ∈ g.live) :
    g.removeDead.2.op? id = g.op? id := by
  have hnode : g.removeDead.2.node? id = g.node? id := by
    ext n
    rw [node?_eq_some (h.ascending.sublist ids_removeDead_sublist), node?_eq_some h.ascending,
      mem_nodes_removeDead]
    constructor
    · rintro ⟨⟨hn, -⟩, rfl⟩
      exact ⟨hn, rfl⟩
    · rintro ⟨hn, rfl⟩
      exact ⟨⟨hn, hid⟩, rfl⟩
  rw [op?, op?, hnode]

theorem expression_removeDead (h : g.Sound) (hv : g.hidden = []) (depth : Nat)
    (hid : g.place id ∈ g.live) :
    g.removeDead.2.expression depth id = g.expression depth id := by
  induction depth generalizing id with
  | zero => rfl
  | succ depth ih =>
    have hoperands : (g.operands id).map (g.removeDead.2.expression depth) =
        (g.operands id).map (g.expression depth) :=
      List.map_congr_left fun o ho => ih (operand_mem_live h hv ho hid)
    simp only [expression, op?_removeDead h hid, operands_removeDead hid, hoperands]

/-- A removal counts what it drops, leaves the rest as it was, and is complete the first time. In a
graph that hides no node it keeps what is needed and no more. -/
theorem removeDead_iff_needed (hg : g.Reachable) :
    g.removeDead.1 + g.removeDead.2.nodeCount = g.nodeCount ∧
      (∀ n ∈ g.removeDead.2.nodes,
        n ∈ g.nodes ∧ g.removeDead.2.operands n.id = g.operands n.id) ∧
      (g.removeDead.2.inputs = g.inputs ∧ g.removeDead.2.outputs = g.outputs ∧
        ∀ c : IdCounters, c.peek g.removeDead.2.space = c.peek g.space) ∧
      g.removeDead.2.removeDead = (0, g.removeDead.2) ∧
      (g.hidden = [] →
        (∀ n ∈ g.nodes, n ∈ g.removeDead.2.nodes ↔ g.Needed n) ∧
        ∀ name id, (name, id) ∈ g.outputs.entries →
          ∀ depth, g.removeDead.2.expression depth id = g.expression depth id) := by
  refine ⟨g.nodeCount_removeDead, fun n hn => ?_, ⟨rfl, rfl, fun _ => rfl⟩,
    g.removeDead_removeDead, fun hv => ⟨fun n hn => ?_, fun name id hentry depth => ?_⟩⟩
  · obtain ⟨hn, hlive⟩ := mem_nodes_removeDead.mp hn
    exact ⟨hn, operands_removeDead hlive⟩
  · rw [mem_nodes_removeDead, and_iff_right hn]
    exact ⟨needed_of_live hg hv hn, live_of_needed hg hv hn⟩
  · apply expression_removeDead hg.sound hv depth
    exact output_mem_live hentry (mem_ids_of_mem_nodes ((hg.named hv).outputs name id hentry))

/-- Two opposites of each other, the second of which is the output `z`. Its other opposite is read
by nothing, as are both inputs. -/
def cyclicOutput : Graph :=
  { blank "g" 1 ⟨0⟩ with
    nodes :=
      [⟨0, .input "x" .cipher⟩, ⟨1, .negate⟩, ⟨2, .negate⟩, ⟨3, .input "y" .cipher⟩,
        ⟨4, .output "z"⟩, ⟨5, .negate⟩]
    edges := [⟨⟨2, 0⟩, ⟨1, 0⟩, 0⟩, ⟨⟨2, 0⟩, ⟨5, 0⟩, 0⟩, ⟨⟨2, 0⟩, ⟨4, 0⟩, 0⟩, ⟨⟨1, 0⟩, ⟨2, 0⟩, 0⟩]
    inputs := ⟨[("x", 0), ("y", 3)]⟩
    outputs := ⟨[("z", 4)]⟩ }

theorem assembled_cyclicOutput : cyclicOutput.Assembled := by
  have hcreate : Graph.create "g" 1 ⟨0⟩ = .ok (.blank "g" 1 ⟨0⟩) := rfl
  have h₁ := (Assembled.create hcreate).extend ⟨[0]⟩ (.input "x" .cipher) [] rfl (by simp) rfl
  have h₂ := h₁.extend ⟨[1]⟩ .negate [0] rfl (by decide) trivial
  have h₃ := h₂.extend ⟨[2]⟩ .negate [1] rfl (by decide) trivial
  have h₄ := h₃.extend ⟨[3]⟩ (.input "y" .cipher) [] rfl (by simp) rfl
  have h₅ := h₄.extend ⟨[4]⟩ (.output "z") [2] rfl (by decide) rfl
  have h₆ := h₅.extend ⟨[5]⟩ .negate [2] rfl (by decide) trivial
  exact h₆.redirect 0 2 (by decide) (by decide) (by decide)

/-- The other opposite goes, and only that. -/
theorem removeDead_iff_needed_cyclicOutput :
    cyclicOutput.removeDead.1 = 1 ∧ cyclicOutput.removeDead.2.ids = [0, 1, 2, 3, 4] ∧
      cyclicOutput.removeDead.2.operands 1 = [2] ∧
      cyclicOutput.Needed ⟨1, .negate⟩ ∧ ¬cyclicOutput.Needed ⟨5, .negate⟩ ∧
      ∀ depth, cyclicOutput.removeDead.2.expression depth 4 = cyclicOutput.expression depth 4 := by
  have hnodes : cyclicOutput.removeDead.2.nodes = [⟨0, .input "x" .cipher⟩, ⟨1, .negate⟩,
      ⟨2, .negate⟩, ⟨3, .input "y" .cipher⟩, ⟨4, .output "z"⟩] := by with_unfolding_all rfl
  obtain ⟨hcount, hkept, -, -, hneeded⟩ := removeDead_iff_needed assembled_cyclicOutput.reachable
  obtain ⟨hiff, hexpression⟩ := hneeded rfl
  refine ⟨?_, ?_, ?_, ?_, ?_, hexpression "z" 4 (by decide)⟩
  · rw [nodeCount, hnodes] at hcount
    exact Nat.add_right_cancel (show cyclicOutput.removeDead.1 + 5 = 1 + 5 from hcount)
  · rw [ids, hnodes]
    rfl
  · rw [(hkept ⟨1, .negate⟩ (by simp [hnodes])).2]
    with_unfolding_all rfl
  · exact (hiff ⟨1, .negate⟩ (by simp [cyclicOutput])).mp (by simp [hnodes])
  · exact mt (hiff ⟨5, .negate⟩ (by simp [cyclicOutput])).mpr (by simp [hnodes])

/-- The ids have come round to `0`, which was `x` and is now the second opposite of `x`. The first
one came just before. -/
def overtakenByOpposite : Graph :=
  { blank "g" 1 ⟨0⟩ with
    nodes := [⟨0, .negate⟩, ⟨18446744073709551615, .negate⟩]
    hidden := [0]
    edges := [⟨⟨0, 0⟩, ⟨0, 1⟩, 0⟩, ⟨⟨0, 0⟩, ⟨18446744073709551615, 0⟩, 0⟩]
    inputs := ⟨[("x", 0)]⟩ }

theorem assembled_overtakenByOpposite : overtakenByOpposite.Assembled := by
  have hcreate : Graph.create "g" 1 ⟨0⟩ = .ok (.blank "g" 1 ⟨0⟩) := rfl
  have h₁ := (Assembled.create hcreate).extend ⟨[0]⟩ (.input "x" .cipher) [] rfl (by simp) rfl
  have h₂ := h₁.extend ⟨[18446744073709551615]⟩ .negate [0] rfl (by decide) trivial
  exact h₂.extend ⟨[0]⟩ .negate [0] rfl (by decide) trivial

/-- The second opposite stays in the place of the input it overtook, though nothing needs it. -/
theorem removeDead_overtakenByOpposite : overtakenByOpposite.Reachable ∧
    ⟨0, .negate⟩ ∈ overtakenByOpposite.removeDead.2.nodes ∧
    ¬overtakenByOpposite.Needed ⟨0, .negate⟩ := by
  refine ⟨assembled_overtakenByOpposite.reachable, ?_, ?_⟩
  · have hnodes : overtakenByOpposite.removeDead.2.nodes = [⟨0, .negate⟩] := by
      with_unfolding_all rfl
    simp [hnodes]
  · rintro (⟨name, type, h⟩ | ⟨name, h⟩ | ⟨out, name, h, -⟩)
    · cases h
    · cases h
    · simp [overtakenByOpposite] at h

end Graph

end CipherGraph

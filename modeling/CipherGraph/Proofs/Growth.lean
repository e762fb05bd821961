import CipherGraph.Proofs.Computation
import CipherGraph.Proofs.Operands
import Mathlib.Data.List.Nodup

/-! # Growing graphs

What a new node changes: it bears its id at a place of its own, reads its operands in the order
given, and leaves every other operand list as it is, also when it hides an earlier bearer.
-/

namespace CipherGraph.Graph

variable {g : Graph}

theorem contains_iff {id : NodeId} : g.contains id = true ↔ id ∈ g.ids := by
  simp [contains, node?, ids, List.find?_isSome]

theorem require_eq_ok {id : NodeId} {u : Unit} : g.require id = .ok u ↔ id ∈ g.ids := by
  rw [← contains_iff]
  by_cases h : g.contains id = true <;> simp [require, h]

theorem create_ok {name : String} {width : Nat} {space : IdSpace} :
    create name width space = .ok g ↔ 0 < width ∧ blank name width space = g := by
  unfold create
  rw [Nat.pos_iff_ne_zero]
  split
  · next h => simp [h]
  · next h => simp [h]

def hiddenPlaces : List NodeId → List Place
  | [] => []
  | id :: rest => ⟨id, rest.count id⟩ :: hiddenPlaces rest

def places (g : Graph) : List Place := g.ids.map g.place ++ hiddenPlaces g.hidden

theorem mem_hiddenPlaces {hidden : List NodeId} {p : Place} :
    p ∈ hiddenPlaces hidden ↔ p.bearer < hidden.count p.id := by
  obtain ⟨id, n⟩ := p
  induction hidden with
  | nil => simp [hiddenPlaces]
  | cons k rest ih =>
    by_cases hk : id = k
    · subst hk
      simp only [hiddenPlaces, List.mem_cons, Place.mk.injEq, true_and, ih, List.count_cons_self]
      omega
    · simp only [hiddenPlaces, List.mem_cons, Place.mk.injEq, hk, false_and, false_or, ih,
        List.count_cons_of_ne (Ne.symm hk)]

theorem nodup_hiddenPlaces (hidden : List NodeId) : (hiddenPlaces hidden).Nodup := by
  induction hidden with
  | nil => simp [hiddenPlaces]
  | cons id rest ih =>
    refine List.nodup_cons.mpr ⟨fun h => ?_, ih⟩
    exact Nat.lt_irrefl _ (mem_hiddenPlaces.mp h)

theorem mem_places {p : Place} :
    p ∈ g.places ↔
      p.bearer < g.hidden.count p.id ∨ p.bearer = g.hidden.count p.id ∧ p.id ∈ g.ids := by
  rw [places, List.mem_append, mem_hiddenPlaces, List.mem_map, or_comm]
  refine or_congr_right ⟨?_, ?_⟩
  · rintro ⟨id, hid, rfl⟩
    exact ⟨rfl, hid⟩
  · rintro ⟨hb, hid⟩
    exact ⟨p.id, hid, by rw [place, ← hb]⟩

theorem place_mem_places {id : NodeId} (h : id ∈ g.ids) : g.place id ∈ g.places :=
  mem_places.mpr (.inr ⟨rfl, h⟩)

theorem place_injective (g : Graph) : Function.Injective g.place := fun _ _ h =>
  congrArg Place.id h

theorem nodup_places (h : g.ids.Nodup) : g.places.Nodup := by
  refine List.nodup_append'.mpr ⟨h.map g.place_injective, nodup_hiddenPlaces _, ?_⟩
  intro p hp hp'
  obtain ⟨id, -, rfl⟩ := List.mem_map.mp hp
  exact Nat.lt_irrefl _ (mem_hiddenPlaces.mp hp')

theorem mem_ids_placeNode {node : Node} {l : List Node} {id : NodeId} :
    id ∈ (placeNode node l).map (·.id) ↔ id = node.id ∨ id ∈ l.map (·.id) := by
  induction l with
  | nil => simp [placeNode]
  | cons n l ih =>
    unfold placeNode
    split
    · simp
    · split
      · next h => simp [h]
      · simp only [List.map_cons, List.mem_cons, ih]
        exact or_left_comm

theorem ascending_placeNode {node : Node} {l : List Node}
    (h : (l.map (·.id)).Pairwise (· < ·)) : ((placeNode node l).map (·.id)).Pairwise (· < ·) := by
  induction l with
  | nil => simp [placeNode]
  | cons n l ih =>
    obtain ⟨hn, hl⟩ := List.pairwise_cons.mp h
    unfold placeNode
    split
    · next hlt =>
      refine List.pairwise_cons.mpr ⟨fun b hb => ?_, h⟩
      rcases List.mem_cons.mp hb with rfl | hb
      · exact hlt
      · exact Nat.lt_trans hlt (hn b hb)
    · split
      · next heq =>
        rw [List.map_cons, heq]
        exact h
      · refine List.pairwise_cons.mpr ⟨fun b hb => ?_, ih hl⟩
        rcases mem_ids_placeNode.mp hb with rfl | hb
        · exact Nat.lt_of_le_of_ne (Nat.not_lt.mp ‹_›) (Ne.symm ‹_›)
        · exact hn b hb

theorem mem_placeNode {node n : Node} {l : List Node} (h : (l.map (·.id)).Pairwise (· < ·)) :
    n ∈ placeNode node l ↔ n = node ∨ n ∈ l ∧ n.id ≠ node.id := by
  induction l with
  | nil => simp [placeNode]
  | cons k l ih =>
    obtain ⟨hk, hl⟩ := List.pairwise_cons.mp h
    have hlater (hle : node.id ≤ k.id) (hn : n ∈ l) : n.id ≠ node.id :=
      Nat.ne_of_gt (Nat.lt_of_le_of_lt hle (hk _ (List.mem_map_of_mem hn)))
    unfold placeNode
    split
    · next hlt =>
      rw [List.mem_cons, List.mem_cons]
      refine or_congr_right ⟨fun hn => ⟨hn, ?_⟩, fun hn => hn.1⟩
      rcases hn with rfl | hn
      · exact Nat.ne_of_gt hlt
      · exact hlater (Nat.le_of_lt hlt) hn
    · split
      · next heq =>
        rw [List.mem_cons, List.mem_cons]
        refine or_congr_right ⟨fun hn => ⟨.inr hn, hlater (Nat.le_of_eq heq) hn⟩, ?_⟩
        rintro ⟨rfl | hn, hne⟩
        · exact absurd heq.symm hne
        · exact hn
      · next hne =>
        rw [List.mem_cons, ih hl, List.mem_cons]
        constructor
        · rintro (rfl | rfl | ⟨hn, hid⟩)
          · exact .inr ⟨.inl rfl, fun h => hne h.symm⟩
          · exact .inl rfl
          · exact .inr ⟨.inr hn, hid⟩
        · rintro (rfl | ⟨rfl | hn, hid⟩)
          · exact .inr (.inl rfl)
          · exact .inl rfl
          · exact .inr (.inr ⟨hn, hid⟩)

theorem node?_eq_some (h : g.ids.Pairwise (· < ·)) {id : NodeId} {node : Node} :
    g.node? id = some node ↔ node ∈ g.nodes ∧ node.id = id := by
  unfold node?
  constructor
  · intro hf
    exact ⟨List.mem_of_find?_eq_some hf, by simpa using List.find?_some hf⟩
  · rintro ⟨hm, rfl⟩
    cases hf : g.nodes.find? (·.id = node.id) with
    | none => simpa using List.find?_eq_none.mp hf node hm
    | some other =>
      have hid : other.id = node.id := by simpa using List.find?_some hf
      have hinj := List.inj_on_of_nodup_map (h.imp Nat.ne_of_lt)
      rw [hinj (List.mem_of_find?_eq_some hf) hm hid]

theorem op?_eq_ok (h : g.ids.Pairwise (· < ·)) {id : NodeId} {op : Operation} :
    g.op? id = .ok op ↔ ⟨id, op⟩ ∈ g.nodes := by
  unfold op?
  constructor
  · intro hop
    split at hop
    · next node hn =>
      obtain ⟨hm, rfl⟩ := (node?_eq_some h).mp hn
      cases hop
      exact hm
    · cases hop
  · intro hm
    rw [(node?_eq_some h).mpr ⟨hm, rfl⟩]

/-- The edges from a node's operands, oldest first. -/
def operandEdges (target : Place) : List Place → Nat → List Edge
  | [], _ => []
  | source :: rest, position =>
    ⟨source, target, position⟩ :: operandEdges target rest (position + 1)

theorem connect_eq (g : Graph) (target : Place) (sources : List Place) (position : Nat) :
    g.connect target sources position =
      { g with edges := (operandEdges target sources position).reverse ++ g.edges } := by
  induction sources generalizing g position with
  | nil => rfl
  | cons source rest ih =>
    rw [connect, ih]
    simp [addEdge, operandEdges]

theorem map_source_operandEdges (target : Place) (sources : List Place) (position : Nat) :
    (operandEdges target sources position).map (·.source) = sources := by
  induction sources generalizing position with
  | nil => rfl
  | cons source rest ih => rw [operandEdges, List.map_cons, ih]

theorem target_of_mem_operandEdges {target : Place} {sources : List Place} {position : Nat}
    {e : Edge} (h : e ∈ operandEdges target sources position) :
    e.target = target ∧ position ≤ e.position := by
  induction sources generalizing position with
  | nil => cases h
  | cons source rest ih =>
    rcases List.mem_cons.mp h with rfl | h
    · exact ⟨rfl, Nat.le_refl _⟩
    · obtain ⟨ht, hp⟩ := ih h
      exact ⟨ht, Nat.le_of_succ_le hp⟩

theorem operandEdges_pairwise (target : Place) (sources : List Place) (position : Nat) :
    (operandEdges target sources position).Pairwise fun a b => a.position < b.position := by
  induction sources generalizing position with
  | nil => exact .nil
  | cons source rest ih =>
    exact List.pairwise_cons.mpr ⟨fun e he => (target_of_mem_operandEdges he).2, ih _⟩

def grow (g : Graph) (node : Node) (operands : List NodeId) : Graph :=
  (g.addNode node).connect ((g.addNode node).place node.id) (operands.map g.place) 0

def declare (g : Graph) (id : NodeId) : Operation → Graph
  | .input name _ => { g with inputs := g.inputs.insert name id }
  | .output name => { g with outputs := g.outputs.insert name id }
  | _ => g

/-- Whether the name that a new node declares is still free. -/
def Declares (g : Graph) : Operation → Prop
  | .input name _ => g.inputs.contains name = false
  | .output name => g.outputs.contains name = false
  | _ => True

theorem register_eq_ok {id : NodeId} {op : Operation} {named : Graph} :
    g.register id op = .ok named ↔ g.Declares op ∧ named = g.declare id op := by
  cases op with
  | input name type =>
    by_cases h : g.inputs.contains name = true <;> simp [register, Declares, declare, h, eq_comm]
  | output name =>
    by_cases h : g.outputs.contains name = true <;> simp [register, Declares, declare, h, eq_comm]
  | _ => simp [register, Declares, declare, eq_comm]

theorem grow_declare (g : Graph) (id : NodeId) (op : Operation) (node : Node)
    (operands : List NodeId) :
    ((g.declare id op).addNode node).connect (((g.declare id op).addNode node).place node.id)
        (operands.map g.place) 0 = (g.grow node operands).declare id op := by
  cases op <;> simp only [declare, grow, connect_eq] <;> rfl

theorem makeNode_ok {op : Operation} {operands : List NodeId} {c c' : IdCounters} {id : NodeId}
    {g' : Graph} :
    Runs (g.makeNode op operands) c (.ok (id, g')) c' ↔
      operands.length = op.arity ∧ (∀ o ∈ operands, o ∈ g.ids) ∧ g.Declares op ∧
        id = c.peek g.space ∧ c' = c.set g.space id.next ∧
        g' = (g.grow ⟨id, op⟩ operands).declare id op := by
  unfold makeNode
  by_cases hlen : operands.length = op.arity
  · simp only [hlen, ne_eq, not_true_eq_false, ↓reduceIte, true_and]
    rw [runs_bind_ok]
    simp only [runs_forM_liftM, runs_bind_ok, Allocating.fresh, runs_get, runs_set, runs_liftM,
      runs_pure, require_eq_ok, Except.ok.injEq]
    constructor
    · rintro ⟨_, _, ⟨hin, rfl⟩, _, _, ⟨_, _, ⟨rfl, rfl⟩, _, _, ⟨-, rfl⟩, rfl, rfl⟩, named, _,
        ⟨hnamed, rfl⟩, hg, rfl⟩
      obtain ⟨hfree, rfl⟩ := register_eq_ok.mp hnamed.symm
      obtain ⟨rfl, rfl⟩ := Prod.mk.inj hg
      exact ⟨hin, hfree, rfl, rfl, grow_declare ..⟩
    · rintro ⟨hin, hfree, rfl, rfl, rfl⟩
      refine ⟨⟨⟩, c, ⟨hin, rfl⟩, _, _, ⟨_, _, ⟨rfl, rfl⟩, ⟨⟩, _, ⟨trivial, rfl⟩, rfl, rfl⟩,
        g.declare _ op, _, ⟨(register_eq_ok.mpr ⟨hfree, rfl⟩).symm, rfl⟩, ?_, rfl⟩
      rw [← grow_declare]
      rfl
  · simp only [hlen, ne_eq, not_false_eq_true, ↓reduceIte, false_and, iff_false]
    intro h
    obtain ⟨_, _, h, -⟩ := runs_bind_ok.mp h
    simp at h

@[simp] theorem declare_edges (g : Graph) (id : NodeId) (op : Operation) :
    (g.declare id op).edges = g.edges := by cases op <;> rfl

@[simp] theorem declare_nodes (g : Graph) (id : NodeId) (op : Operation) :
    (g.declare id op).nodes = g.nodes := by cases op <;> rfl

@[simp] theorem declare_hidden (g : Graph) (id : NodeId) (op : Operation) :
    (g.declare id op).hidden = g.hidden := by cases op <;> rfl

@[simp] theorem declare_space (g : Graph) (id : NodeId) (op : Operation) :
    (g.declare id op).space = g.space := by cases op <;> rfl

@[simp] theorem declare_width (g : Graph) (id : NodeId) (op : Operation) :
    (g.declare id op).width = g.width := by cases op <;> rfl

@[simp] theorem declare_name (g : Graph) (id : NodeId) (op : Operation) :
    (g.declare id op).name = g.name := by cases op <;> rfl

section Grow

variable (g : Graph) (node : Node) (operands : List NodeId)

@[simp] theorem grow_nodes : (g.grow node operands).nodes = placeNode node g.nodes := by
  rw [grow, connect_eq]
  rfl

@[simp] theorem grow_hidden :
    (g.grow node operands).hidden =
      if g.contains node.id then node.id :: g.hidden else g.hidden := by
  rw [grow, connect_eq]
  rfl

@[simp] theorem grow_inputs : (g.grow node operands).inputs = g.inputs := by
  rw [grow, connect_eq]
  rfl

@[simp] theorem grow_outputs : (g.grow node operands).outputs = g.outputs := by
  rw [grow, connect_eq]
  rfl

@[simp] theorem grow_space : (g.grow node operands).space = g.space := by
  rw [grow, connect_eq]
  rfl

@[simp] theorem grow_width : (g.grow node operands).width = g.width := by
  rw [grow, connect_eq]
  rfl

@[simp] theorem grow_name : (g.grow node operands).name = g.name := by
  rw [grow, connect_eq]
  rfl

theorem grow_place (id : NodeId) : (g.grow node operands).place id = (g.addNode node).place id := by
  rw [grow, connect_eq]
  rfl

theorem grow_edges :
    (g.grow node operands).edges =
      (operandEdges ((g.grow node operands).place node.id) (operands.map g.place) 0).reverse ++
        g.edges := by
  rw [grow_place, grow, connect_eq]
  rfl

end Grow

variable {node : Node} {operands : List NodeId}

theorem mem_ids_grow {id : NodeId} :
    id ∈ (g.grow node operands).ids ↔ id = node.id ∨ id ∈ g.ids := by
  rw [ids, grow_nodes, mem_ids_placeNode]
  rfl

theorem grow_hidden_eq_nil :
    (g.grow node operands).hidden = [] ↔ node.id ∉ g.ids ∧ g.hidden = [] := by
  rw [grow_hidden, ← contains_iff]
  split <;> simp_all

theorem grow_place_of_ne {id : NodeId} (h : id ≠ node.id) :
    (g.grow node operands).place id = g.place id := by
  rw [place, place, grow_hidden]
  split
  · rw [List.count_cons_of_ne (Ne.symm h)]
  · rfl

theorem grow_place_not_mem : (g.grow node operands).place node.id ∉ g.places := by
  rw [mem_places, place, grow_hidden]
  split
  · simp only [List.count_cons_self]
    omega
  · next h =>
    simp only [contains_iff] at h
    simp [h]

theorem mem_places_grow {p : Place} (h : p ∈ g.places) : p ∈ (g.grow node operands).places := by
  by_cases hid : p.id = node.id
  · rw [mem_places] at h ⊢
    rw [grow_hidden]
    split
    · rw [hid, List.count_cons_self]
      rw [hid] at h
      omega
    · next hc =>
      rw [contains_iff] at hc
      rcases h with h | ⟨-, h⟩
      · exact .inl h
      · exact absurd (hid ▸ h) hc
  · have hp : (g.grow node operands).place p.id = g.place p.id := grow_place_of_ne hid
    simp only [place, Place.mk.injEq, true_and] at hp
    rw [mem_places] at h ⊢
    rw [hp]
    exact h.imp_right fun h => ⟨h.1, mem_ids_grow.mpr (.inr h.2)⟩

theorem source_of_mem_grow_edges (hsources : ∀ e ∈ g.edges, e.source ∈ g.places)
    (hin : ∀ o ∈ operands, o ∈ g.ids) {e : Edge} (he : e ∈ (g.grow node operands).edges) :
    e.source ∈ g.places := by
  rw [grow_edges] at he
  rcases List.mem_append.mp he with he | he
  · have hsource := List.mem_map_of_mem (f := Edge.source) (List.mem_reverse.mp he)
    rw [map_source_operandEdges] at hsource
    obtain ⟨o, ho, hp⟩ := List.mem_map.mp hsource
    rw [← hp]
    exact place_mem_places (hin o ho)
  · exact hsources e he

theorem incoming_grow_of_ne {id : NodeId} (h : id ≠ node.id) :
    (g.grow node operands).incoming id = g.incoming id := by
  rw [incoming, incoming, grow_edges, List.filter_append, grow_place_of_ne h,
    List.append_left_eq_self]
  refine List.filter_eq_nil_iff.mpr ?_
  intro e he
  have ht := (target_of_mem_operandEdges (List.mem_reverse.mp he)).1
  simp only [ht, decide_eq_true_eq]
  exact fun heq => h (congrArg Place.id heq).symm

theorem operands_grow_of_ne {id : NodeId} (h : id ≠ node.id) :
    (g.grow node operands).operands id = g.operands id := by
  rw [operands_eq, operands_eq, incoming_grow_of_ne h]

theorem incoming_grow_self (h : ∀ e ∈ g.edges, e.target ∈ g.places) :
    (g.grow node operands).incoming node.id =
      (operandEdges ((g.grow node operands).place node.id) (operands.map g.place) 0).reverse := by
  have hnew : (operandEdges ((g.grow node operands).place node.id) (operands.map g.place)
      0).reverse.filter (·.target = (g.grow node operands).place node.id) =
      (operandEdges ((g.grow node operands).place node.id) (operands.map g.place) 0).reverse := by
    refine List.filter_eq_self.mpr ?_
    intro e he
    simp [(target_of_mem_operandEdges (List.mem_reverse.mp he)).1]
  have hold : g.edges.filter (·.target = (g.grow node operands).place node.id) = [] := by
    refine List.filter_eq_nil_iff.mpr ?_
    intro e he
    simp only [decide_eq_true_eq]
    exact fun heq => grow_place_not_mem (heq ▸ h e he)
  rw [incoming, grow_edges, List.filter_append, hnew, hold, List.append_nil]

theorem byPosition_reverse {edges : List Edge}
    (h : edges.Pairwise fun a b => a.position < b.position) : byPosition edges.reverse = edges := by
  refine List.Perm.eq_of_pairwise ?_ (byPosition_pairwise _) (h.imp Nat.le_of_lt)
    ((byPosition_perm _).trans (List.reverse_perm _))
  intro a b ha hb hab hba
  have ha : a ∈ edges := List.mem_reverse.mp ((byPosition_perm _).mem_iff.mp ha)
  exact List.inj_on_of_nodup_map (f := Edge.position)
    (List.pairwise_map.mpr (h.imp Nat.ne_of_lt)) ha hb (Nat.le_antisymm hab hba)

theorem operands_eq_reverse {id : NodeId}
    (h : (g.incoming id).reverse.Pairwise fun a b => a.position < b.position) :
    g.operands id = (g.incoming id).reverse.map (·.source.id) := by
  rw [operands_eq, ← byPosition_reverse h, List.reverse_reverse]

theorem operands_grow_self (h : ∀ e ∈ g.edges, e.target ∈ g.places) :
    (g.grow node operands).operands node.id = operands := by
  rw [operands_eq, incoming_grow_self h, byPosition_reverse (operandEdges_pairwise ..),
    ← Function.comp_def Place.id Edge.source, ← List.map_map, map_source_operandEdges,
    List.map_map]
  exact List.map_id _

theorem length_placeNode_le (node : Node) (l : List Node) :
    l.length ≤ (placeNode node l).length := by
  induction l with
  | nil => exact Nat.zero_le _
  | cons n l ih =>
    unfold placeNode
    split
    · exact Nat.le_succ _
    · split
      · exact Nat.le_refl _
      · exact Nat.succ_le_succ ih

theorem length_placeNode {node : Node} {l : List Node} (h : node.id ∉ l.map (·.id)) :
    (placeNode node l).length = l.length + 1 := by
  induction l with
  | nil => rfl
  | cons n l ih =>
    simp only [List.map_cons, List.mem_cons, not_or] at h
    rw [placeNode, if_neg h.1]
    split
    · rfl
    · simp [ih h.2]

theorem nodeCount_le_grow (g : Graph) (node : Node) (operands : List NodeId) :
    g.nodeCount ≤ (g.grow node operands).nodeCount := by
  rw [nodeCount, nodeCount, grow_nodes, grow_hidden]
  refine Nat.add_le_add (length_placeNode_le ..) ?_
  split <;> simp

theorem nodeCount_grow (node : Node) (operands : List NodeId) (h : node.id ∉ g.ids) :
    (g.grow node operands).nodeCount = g.nodeCount + 1 := by
  rw [nodeCount, nodeCount, grow_nodes, grow_hidden, length_placeNode h,
    if_neg (by simpa [contains_iff] using h)]
  omega

theorem length_placeNode_of_mem {node : Node} {l : List Node}
    (hl : (l.map (·.id)).Pairwise (· < ·)) (h : node.id ∈ l.map (·.id)) :
    (placeNode node l).length = l.length := by
  induction l with
  | nil => exact absurd h List.not_mem_nil
  | cons n l ih =>
    rw [List.map_cons, List.pairwise_cons] at hl
    rw [placeNode]
    rcases List.mem_cons.mp h with heq | hmem
    · rw [if_neg (Nat.lt_irrefl _ <| heq ▸ ·), if_pos heq]
      rfl
    · have hlt := hl.1 _ hmem
      rw [if_neg (Nat.lt_asymm hlt), if_neg (Nat.ne_of_gt hlt)]
      exact congrArg Nat.succ (ih hl.2 hmem)

theorem nodeCount_grow_of_ascending (h : g.ids.Pairwise (· < ·)) (node : Node)
    (operands : List NodeId) : (g.grow node operands).nodeCount = g.nodeCount + 1 := by
  by_cases hid : node.id ∈ g.ids
  · rw [nodeCount, nodeCount, grow_nodes, grow_hidden, length_placeNode_of_mem h hid,
      if_pos (contains_iff.mpr hid)]
    rfl
  · exact nodeCount_grow node operands hid

end CipherGraph.Graph

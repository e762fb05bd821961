import CipherGraph.Proofs.CompiledIds
import CipherGraph.Proofs.Order

/-! # Bounds on the nodes that lowering adds

A visit adds at most three nodes: an encoding, and a negation with a sum in the place of a
difference. So a compilation has room for its ids unless the counter stands just below its end.
-/

namespace CipherGraph

namespace Lower

variable {α β : Type} {k l : Nat} {o : LoweringOptions}

/-- However it ends, a computation adds at most `k` nodes. -/
structure Within (k : Nat) (m : Lower α) : Prop where
  steps : Steps m
  count : ∀ s r s', s.graph.Reachable → Runs m s r s' →
    s'.graph.nodeCount ≤ s.graph.nodeCount + k

theorem Within.mono {m : Lower α} (h : Within k m) (hkl : k ≤ l) : Within l m :=
  ⟨h.steps, fun s r s' hs hm => (h.count s r s' hs hm).trans (Nat.add_le_add_left hkl _)⟩

theorem Within.of_graph_eq {m : Lower α} (hm : Steps m)
    (h : ∀ s r s', Runs m s r s' → s'.graph = s.graph) : Within 0 m :=
  ⟨hm, fun s r s' _ hrun => Nat.le_of_eq (congrArg Graph.nodeCount (h s r s' hrun))⟩

theorem Within.bind {m : Lower α} {f : α → Lower β} (hm : Within k m) (hf : ∀ a, Within l (f a)) :
    Within (k + l) (m >>= f) := by
  refine ⟨.bind hm.steps fun a => (hf a).steps, fun s r s' hs h => ?_⟩
  rcases runs_bind h with ⟨_, h, -⟩ | ⟨a, s₁, h, hrest⟩
  · have hfirst := hm.count s _ s' hs h
    omega
  · have hfirst := hm.count s _ s₁ hs h
    have hthen := (hf a).count s₁ r s' ((hm.steps s _ s₁ h).reachable hs) hrest
    omega

theorem Within.then {m : Lower α} {f : α → Lower β} (hm : Within 0 m) (hf : ∀ a, Within k (f a)) :
    Within k (m >>= f) := (hm.bind hf).mono (Nat.le_of_eq (Nat.zero_add k))

theorem Within.pure (a : α) : Within k (pure a : Lower α) :=
  (Within.of_graph_eq (.pure a) fun _ _ _ h => by rw [(runs_pure.mp h).2]).mono (Nat.zero_le k)

theorem Within.map {m : Lower α} (hm : Within k m) (f : α → β) :
    Within k (do return f (← m)) := hm.bind (l := 0) fun a => .pure (f a)

theorem Within.throw (e : CompileError) : Within k (throw e : Lower α) :=
  (Within.of_graph_eq (.throw e) fun _ _ _ h => by rw [(runs_throw.mp h).2]).mono (Nat.zero_le k)

theorem Within.get : Within 0 (get : Lower LoweringState) :=
  .of_graph_eq .get fun _ _ _ h => by rw [(runs_get.mp h).2]

theorem Within.told (f : LoweringReport → LoweringReport) : Within 0 (Lower.count f) :=
  .of_graph_eq (.count f) fun _ _ _ h => by
    obtain ⟨-, rfl⟩ := runs_modify.mp h
    rfl

theorem Within.ofGraph (r : Except GraphError α) : Within 0 (Lower.ofGraph r) := by
  cases r with
  | ok a => exact .pure a
  | error e => exact .throw _

theorem Within.typeOf (id : NodeId) : Within 0 (Lower.typeOf id) := .then .get fun _ => .ofGraph _

theorem Within.emit {op : Operation} (hop : op.isOriginal = false) (operands : List NodeId)
    (type : ValueClass) : Within 1 (Lower.emit op operands type) := by
  refine ⟨.emit hop operands type, fun s r s' hs h => ?_⟩
  rcases runs_emit hop h with ⟨id, graph, counters, hm, -, rfl⟩ | ⟨_, -, -, rfl⟩
  · obtain ⟨-, -, -, -, -, rfl⟩ := Graph.makeNode_ok.mp hm
    rw [Graph.declare_of_isOriginal hop]
    exact Nat.le_of_eq (Graph.nodeCount_grow_of_ascending hs.sound.ascending ⟨id, op⟩ operands)
  · exact Nat.le_add_right _ _

theorem Within.encodeRaw (o : LoweringOptions) (id : NodeId) (type : ValueClass) :
    Within (if type = .raw then 1 else 0) (Lower.encodeRaw o id type) := by
  unfold Lower.encodeRaw
  split
  · exact .then (.told _) fun _ => .emit rfl _ _
  · exact .pure _

theorem Within.again (op : Arithmetic) (lhs rhs : NodeId) (a b : ValueClass) :
    Within 1 (Lower.again op lhs rhs a b) := by
  unfold Lower.again
  split
  · exact .map (.emit rfl _ _) _
  · exact .pure _

theorem Within.commute (op : Arithmetic) (lhs rhs : NodeId) : Within 1 (Lower.commute op lhs rhs) :=
  .then (.told _) fun _ => .map (.emit rfl _ _) _

theorem Within.negateAndAdd (lhs rhs : NodeId) : Within 2 (Lower.negateAndAdd lhs rhs) :=
  .bind (k := 1) (.emit rfl _ _) fun _ => .then (.told _) fun _ => .map (.emit rfl _ _) _

theorem Within.rewritten (o : LoweringOptions) (id : NodeId) (op : Arithmetic) (lhs rhs : NodeId)
    (a b : ValueClass) : Within 2 (Lower.rewritten o id op lhs rhs a b) := by
  unfold Lower.rewritten
  split
  · exact (Within.again _ _ _ _ _).mono (by decide)
  · split
    · exact (Within.commute _ _ _).mono (by decide)
    · exact (Within.commute _ _ _).mono (by decide)
    · split
      · exact (Within.again _ _ _ _ _).mono (by decide)
      · exact .negateAndAdd _ _
    · split
      · exact (Within.again _ _ _ _ _).mono (by decide)
      · exact .throw _

theorem Within.replacementOfEncrypted (id : NodeId) (op : Arithmetic) (lhs rhs : NodeId)
    {a b : ValueClass} (hc : a = .cipher ∨ b = .cipher) :
    Within 3 (Lower.replacementOfEncrypted o id op lhs rhs a b) := by
  rw [replacementOfEncrypted_eq]
  refine (Within.bind (.encodeRaw _ _ _) fun _ => .bind (.encodeRaw _ _ _) fun _ =>
    .rewritten _ _ _ _ _ _ _).mono ?_
  rcases hc with rfl | rfl
  · cases b <;> decide
  · cases a <;> decide

theorem Within.replacementOfArithmetic (o : LoweringOptions) (id : NodeId) (op : Arithmetic) :
    Within 3 (Lower.replacementOfArithmetic o id op) := by
  unfold Lower.replacementOfArithmetic
  refine .then .get fun s => ?_
  split
  · refine .then (.typeOf _) fun a => .then (.typeOf _) fun b => ?_
    dsimp only
    split
    · exact .throw _
    · split
      · next hc => exact .replacementOfEncrypted _ _ _ _ (by simpa [ValueClass.isCipher] using hc)
      · exact .pure _
  · exact .pure _

theorem Within.checkRotation (o : LoweringOptions) (id : NodeId) (op : Operation) :
    Within 0 (Lower.checkRotation o id op) := by
  unfold Lower.checkRotation
  refine .then (.typeOf _) fun type => ?_
  split
  · exact .throw _
  · exact .pure _

theorem Within.replacement? (o : LoweringOptions) (id : NodeId) :
    Within 3 (Lower.replacement? o id) := by
  unfold Lower.replacement?
  refine .then .get fun s => .then (.ofGraph _) fun op => ?_
  split
  · exact .throw _
  · exact .replacementOfArithmetic _ _ _
  · exact .then (.checkRotation _ _ _) fun _ => .pure _
  · exact .then (.checkRotation _ _ _) fun _ => .pure _
  · split
    · exact .pure _
    · exact .throw _
  · exact .pure _
  · exact .pure _
  · exact .pure _
  · exact .pure _

theorem Within.step (o : LoweringOptions) (id : NodeId) : Within 3 (Lower.step o id) := by
  refine ⟨.step o id, fun s r s' hs h => ?_⟩
  have hsearch := (Within.replacement? o id).count s
  rcases runs_step h with ⟨_, h₁, -⟩ | ⟨_, s₁, h₁, ⟨_, _, hu, -, rfl⟩ | ⟨_, -, -, rfl⟩⟩
  · exact hsearch _ _ hs h₁
  · obtain ⟨_, rfl⟩ := Graph.replaceUses_frame hu
    exact hsearch _ s₁ hs h₁
  · exact hsearch _ _ hs h₁

theorem Within.forM {f : α → Lower Unit} (hf : ∀ a, Within k (f a)) (order : List α) :
    Within (k * order.length) (order.forM f) := by
  induction order with
  | nil => exact .pure _
  | cons a order ih =>
    refine (Within.bind (hf a) fun _ => ih).mono ?_
    rw [List.length_cons, Nat.mul_succ, Nat.add_comm]

end Lower

namespace Graph

variable {g : Graph} {o : CompileOptions} {c : IdCounters}

/-- The room that a compilation needs is known beforehand, whatever becomes of it. -/
theorem added_le (hg : g.Reachable) : g.added o c ≤ 3 * g.nodes.length := by
  unfold added lowering
  cases ht : g.inferTypes with
  | error e => exact (Nat.sub_eq_zero_of_le (Nat.le_refl _)).trans_le (Nat.zero_le _)
  | ok types =>
    obtain ⟨order, ho, -⟩ := Except.bind_eq_ok.mp ht
    have hrun := runs_lower g types ⟨o.scheme, o.scaleBits⟩ c
    have hstart : (g.loweringStart types c).graph.forwardOrder = .ok order := ho
    unfold Lower.everyNode at hrun
    rw [runs_get_bind, hstart, runs_bind_of_ok (Lower.runs_ofGraph_ok order)] at hrun
    have hcount := (Lower.Within.forM (Lower.Within.step _) order).count _ _ _ hg hrun
    have hlength : order.length = g.nodes.length :=
      (forwardOrder_perm ho).length_eq.trans (List.length_map _)
    rw [hlength] at hcount
    exact Nat.sub_le_of_le_add ((Nat.le_of_eq (Nat.add_comm _ _)).trans' hcount)

theorem room_of_length (hg : g.Reachable)
    (hroom : c.peek g.space + 3 * g.nodes.length < NodeId.bound) :
    c.peek g.space + g.added o c < NodeId.bound :=
  (Nat.add_le_add_left (added_le hg) _).trans_lt hroom

end Graph

namespace Group

variable {gr : Group} {o : CompileOptions} {c : IdCounters} {graphs : List Graph}

theorem addedInTurn_le (hgraphs : ∀ g ∈ graphs, g.Reachable) :
    addedInTurn o graphs c ≤ 3 * (graphs.map (·.nodes.length)).sum := by
  induction graphs generalizing c with
  | nil => exact Nat.le_refl 0
  | cons g graphs ih =>
    obtain ⟨hg, hgraphs⟩ := List.forall_mem_cons.mp hgraphs
    rw [addedInTurn, List.map_cons, List.sum_cons, Nat.mul_add]
    exact Nat.add_le_add (Graph.added_le hg) (ih hgraphs)

theorem room_of_length (hgraphs : ∀ g ∈ gr.graphs, g.Reachable)
    (hroom : c.peek gr.space + 3 * (gr.graphs.map (·.nodes.length)).sum < NodeId.bound) :
    c.peek gr.space + gr.added o c < NodeId.bound :=
  (Nat.add_le_add_left (addedInTurn_le hgraphs) _).trans_lt hroom

end Group

end CipherGraph

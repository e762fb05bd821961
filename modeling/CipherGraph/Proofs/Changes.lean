import CipherGraph.Compile.Lowering
import CipherGraph.Proofs.Wellformed
import Mathlib.Logic.Relation

/-! # What a lowering changes

A lowering, also one that fails, goes through a sequence of changes: a node is added, the report
is kept, or the consumers of a node are redirected. Facts about all lowerings follow by induction
on that sequence.
-/

namespace CipherGraph

/-- Operations that a lowering never adds; only the builder of a graph does. What a lowering encodes
has all levels. -/
def Operation.isOriginal : Operation → Bool
  | .encode _ 0 | .negate | .arithmetic _ => false
  | _ => true

namespace Graph

variable {g g' : Graph} {op : Operation} {operands : List NodeId} {c c' : IdCounters}

theorem declares_of_isOriginal (hop : op.isOriginal = false) : g.Declares op := by
  cases op <;> trivial

theorem declare_of_isOriginal (hop : op.isOriginal = false) (id : NodeId) :
    g.declare id op = g := by
  cases op <;> first | rfl | cases hop

/-- A builder call that is refused before it draws an id leaves the counters alone. -/
theorem makeNode_error (hop : op.isOriginal = false) {e : GraphError}
    (h : Runs (g.makeNode op operands) c (.error e) c') : c' = c := by
  unfold makeNode at h
  split at h
  · rcases runs_bind_error.mp h with h | ⟨_, _, h, -⟩
    · exact (runs_throw.mp h).2
    · simp at h
  · rcases runs_bind_error.mp h with h | ⟨_, _, -, h⟩
    · exact state_of_runs_forM_liftM h
    · -- From here on nothing fails.
      simp only [runs_bind_error, Allocating.fresh, runs_get, runs_set, runs_liftM, runs_pure,
        register_eq_ok.mpr ⟨declares_of_isOriginal hop, rfl⟩] at h
      simp at h

end Graph

namespace Lower

/-- One change to a graph in the course of lowering. -/
inductive Change : LoweringState → LoweringState → Prop where
  | emitted {s : LoweringState} {op : Operation} {operands : List NodeId} {id : NodeId}
      {graph : Graph} {counters : IdCounters} (type : ValueClass) (hop : op.isOriginal = false)
      (h : Runs (s.graph.makeNode op operands) s.counters (.ok (id, graph)) counters) :
      Change s { s with graph, types := s.types.insert id type, counters }
  | reported (s : LoweringState) (report : LoweringReport) : Change s { s with report }
  | replaced {s : LoweringState} {old new : NodeId} {n : Nat} {graph : Graph}
      (h : s.graph.replaceUses old new = .ok (n, graph)) : Change s { s with graph }

abbrev Path : LoweringState → LoweringState → Prop := Relation.ReflTransGen Change

variable {α β : Type} {s s' : LoweringState} {m : Lower α} {r : Except CompileError α}

/-- What adding a node in the course of lowering does; it fails without a trace. -/
theorem runs_emit {op : Operation} {operands : List NodeId} {type : ValueClass}
    {r : Except CompileError NodeId} (hop : op.isOriginal = false)
    (h : Runs (emit op operands type) s r s') :
    (∃ id graph counters,
        Runs (s.graph.makeNode op operands) s.counters (.ok (id, graph)) counters ∧ r = .ok id ∧
          s' = { s with graph, types := s.types.insert id type, counters }) ∨
      ∃ e, Runs (s.graph.makeNode op operands) s.counters (.error e) s.counters ∧
        r = .error (.graph e) ∧ s' = s := by
  unfold emit at h
  rw [runs_get_bind] at h
  cases hm : (s.graph.makeNode op operands).run.run s.counters with
  | mk result counters =>
    rw [hm] at h
    cases result with
    | ok made =>
      rw [runs_set_bind] at h
      obtain ⟨rfl, rfl⟩ := runs_pure.mp h
      exact .inl ⟨_, _, _, hm, rfl, rfl⟩
    | error e =>
      rw [runs_set_bind] at h
      obtain ⟨rfl, rfl⟩ := runs_throw.mp h
      have hc := Graph.makeNode_error hop hm
      subst hc
      exact .inr ⟨e, hm, rfl, rfl⟩

/-- A computation that makes changes only. -/
def Steps (m : Lower α) : Prop := ∀ s r s', Runs m s r s' → Path s s'

theorem Steps.pure (a : α) : Steps (pure a : Lower α) := by
  intro s r s' h
  rw [(runs_pure.mp h).2]

theorem Steps.throw (e : CompileError) : Steps (throw e : Lower α) := by
  intro s r s' h
  rw [(runs_throw.mp h).2]

theorem Steps.get : Steps (get : Lower LoweringState) := by
  intro s r s' h
  rw [(runs_get.mp h).2]

theorem Steps.bind {m : Lower α} {f : α → Lower β} (hm : Steps m) (hf : ∀ a, Steps (f a)) :
    Steps (m >>= f) := by
  intro s r s' h
  rcases runs_bind h with ⟨_, h, -⟩ | ⟨a, s₁, h, hrest⟩
  · exact hm s _ s' h
  · exact (hm s _ s₁ h).trans (hf a s₁ r s' hrest)

theorem Steps.ofGraph (r : Except GraphError α) : Steps (ofGraph r) := by
  cases r with
  | ok a => exact .pure a
  | error e => exact .throw _

theorem Steps.typeOf (id : NodeId) : Steps (typeOf id) := .bind .get fun _ => .ofGraph _

theorem Steps.emit {op : Operation} (hop : op.isOriginal = false) (operands : List NodeId)
    (type : ValueClass) : Steps (emit op operands type) := by
  intro s r s' h
  rcases runs_emit hop h with ⟨id, graph, counters, hm, -, rfl⟩ | ⟨_, -, -, rfl⟩
  · exact .single (.emitted type hop hm)
  · exact .refl

theorem Steps.count (f : LoweringReport → LoweringReport) : Steps (count f) := by
  intro s r s' h
  obtain ⟨-, rfl⟩ := runs_modify.mp h
  exact .single (.reported s _)

theorem Steps.encodeRaw (o : LoweringOptions) (id : NodeId) (type : ValueClass) :
    Steps (encodeRaw o id type) := by
  unfold Lower.encodeRaw
  split
  · exact .bind (.count _) fun _ => .emit rfl _ _
  · exact .pure _

/-- An operation made again with encoded operands. -/
def again (op : Arithmetic) (lhs rhs : NodeId) (lhsType rhsType : ValueClass) :
    Lower (Option NodeId) := do
  if lhsType = .raw || rhsType = .raw then return some (← emitArithmetic op lhs rhs)
  else return none

def commute (op : Arithmetic) (lhs rhs : NodeId) : Lower (Option NodeId) := do
  count fun r => { r with commuted := r.commuted + 1 }
  return some (← emitArithmetic op rhs lhs)

/-- A difference as the sum of the negated right operand and the left one. -/
def negateAndAdd (lhs rhs : NodeId) : Lower (Option NodeId) := do
  let negated ← emit .negate [rhs] .cipher
  count fun r => { r with subsReplaced := r.subsReplaced + 1 }
  return some (← emitArithmetic .add negated lhs)

/-- What becomes of an encrypted operation whose operands are encoded. -/
def rewritten (o : LoweringOptions) (id : NodeId) (op : Arithmetic) (lhs rhs : NodeId)
    (lhsType rhsType : ValueClass) : Lower (Option NodeId) :=
  if lhsType.isCipher then again op lhs rhs lhsType rhsType
  else match op with
    | .add | .mul => commute op lhs rhs
    | .sub =>
      if o.scheme.capabilities.plainMinusCipher then again .sub lhs rhs lhsType rhsType
      else negateAndAdd lhs rhs
    | .div =>
      if o.scheme.capabilities.plainByCipherDivision then again .div lhs rhs lhsType rhsType
      else throw (.unsupported id Arithmetic.div.name o.scheme)

theorem replacementOfEncrypted_eq (o : LoweringOptions) (id : NodeId) (op : Arithmetic)
    (lhs rhs : NodeId) (lhsType rhsType : ValueClass) :
    replacementOfEncrypted o id op lhs rhs lhsType rhsType = (do
      let lhs ← encodeRaw o lhs lhsType
      let rhs ← encodeRaw o rhs rhsType
      rewritten o id op lhs rhs lhsType rhsType) := by
  cases op <;> rfl

theorem Steps.emitArithmetic (op : Arithmetic) (lhs rhs : NodeId) :
    Steps (emitArithmetic op lhs rhs) := .emit rfl _ _

theorem Steps.again (op : Arithmetic) (lhs rhs : NodeId) (lhsType rhsType : ValueClass) :
    Steps (again op lhs rhs lhsType rhsType) := by
  unfold Lower.again
  split
  · exact .bind (.emitArithmetic _ _ _) fun _ => .pure _
  · exact .pure _

theorem Steps.commute (op : Arithmetic) (lhs rhs : NodeId) : Steps (commute op lhs rhs) :=
  .bind (.count _) fun _ => .bind (.emitArithmetic _ _ _) fun _ => .pure _

theorem Steps.negateAndAdd (lhs rhs : NodeId) : Steps (negateAndAdd lhs rhs) :=
  .bind (.emit rfl _ _) fun _ => .bind (.count _) fun _ =>
    .bind (.emitArithmetic _ _ _) fun _ => .pure _

theorem Steps.rewritten (o : LoweringOptions) (id : NodeId) (op : Arithmetic) (lhs rhs : NodeId)
    (lhsType rhsType : ValueClass) : Steps (rewritten o id op lhs rhs lhsType rhsType) := by
  unfold Lower.rewritten
  split
  · exact .again _ _ _ _ _
  · split
    · exact .commute _ _ _
    · exact .commute _ _ _
    · split
      · exact .again _ _ _ _ _
      · exact .negateAndAdd _ _
    · split
      · exact .again _ _ _ _ _
      · exact .throw _

theorem Steps.replacementOfEncrypted (o : LoweringOptions) (id : NodeId) (op : Arithmetic)
    (lhs rhs : NodeId) (lhsType rhsType : ValueClass) :
    Steps (replacementOfEncrypted o id op lhs rhs lhsType rhsType) := by
  rw [replacementOfEncrypted_eq]
  exact .bind (.encodeRaw _ _ _) fun _ => .bind (.encodeRaw _ _ _) fun _ => .rewritten _ _ _ _ _ _ _

theorem Steps.replacementOfArithmetic (o : LoweringOptions) (id : NodeId) (op : Arithmetic) :
    Steps (replacementOfArithmetic o id op) := by
  unfold Lower.replacementOfArithmetic
  refine .bind .get fun s => ?_
  split
  · refine .bind (.typeOf _) fun lhsType => .bind (.typeOf _) fun rhsType => ?_
    dsimp only
    split
    · exact .throw _
    · split
      · exact .replacementOfEncrypted _ _ _ _ _ _ _
      · exact .pure _
  · exact .pure _

theorem Steps.checkRotation (o : LoweringOptions) (id : NodeId) (op : Operation) :
    Steps (checkRotation o id op) := by
  unfold Lower.checkRotation
  refine .bind (.typeOf _) fun type => ?_
  split
  · exact .throw _
  · exact .pure _

theorem Steps.replacement? (o : LoweringOptions) (id : NodeId) : Steps (replacement? o id) := by
  unfold Lower.replacement?
  refine .bind .get fun s => .bind (.ofGraph _) fun op => ?_
  split
  · exact .throw _
  · exact .replacementOfArithmetic _ _ _
  · exact .bind (.checkRotation _ _ _) fun _ => .pure _
  · exact .bind (.checkRotation _ _ _) fun _ => .pure _
  · split
    · exact .pure _
    · exact .throw _
  · exact .pure _
  · exact .pure _
  · exact .pure _
  · exact .pure _

theorem runs_ofGraph_ok (a : α) : Runs (ofGraph (.ok a)) s (.ok a) s := runs_pure.mpr ⟨rfl, rfl⟩

theorem runs_step {o : LoweringOptions} {id : NodeId} {r : Except CompileError Unit}
    (h : Runs (step o id) s r s') :
    (∃ r', Runs (replacement? o id) s r' s' ∧ (∀ new, r' ≠ .ok (some new)) ∧
        r = r'.map fun _ => ()) ∨
      ∃ new s₁, Runs (replacement? o id) s (.ok (some new)) s₁ ∧
        ((∃ n graph, s₁.graph.replaceUses id new = .ok (n, graph) ∧ r = .ok () ∧
            s' = { s₁ with graph }) ∨
          ∃ e, s₁.graph.replaceUses id new = .error e ∧ r = .error (.graph e) ∧ s' = s₁) := by
  unfold step at h
  rcases runs_bind h with ⟨e, h₁, rfl⟩ | ⟨found, s₁, h₁, hrest⟩
  · exact .inl ⟨.error e, h₁, by simp, rfl⟩
  · cases found with
    | none =>
      obtain ⟨rfl, rfl⟩ := runs_pure.mp hrest
      exact .inl ⟨.ok none, h₁, by simp, rfl⟩
    | some new =>
      refine .inr ⟨new, s₁, h₁, ?_⟩
      simp only [runs_get_bind] at hrest
      cases hu : s₁.graph.replaceUses id new with
      | ok replaced =>
        simp only [hu, ofGraph, pure_bind] at hrest
        obtain ⟨rfl, rfl⟩ := runs_set.mp hrest
        exact .inl ⟨_, _, rfl, rfl, rfl⟩
      | error e =>
        rw [hu] at hrest
        rcases runs_bind hrest with ⟨e', h₂, rfl⟩ | ⟨_, _, h₂, -⟩
        · obtain ⟨he, rfl⟩ := runs_throw.mp h₂
          cases he
          exact .inr ⟨e, rfl, rfl, rfl⟩
        · obtain ⟨he, -⟩ := runs_throw.mp h₂
          cases he

theorem Steps.step (o : LoweringOptions) (id : NodeId) : Steps (step o id) := by
  intro s r s' h
  rcases runs_step h with ⟨_, h₁, -⟩ | ⟨_, s₁, h₁, ⟨_, _, hu, -, rfl⟩ | ⟨_, -, -, rfl⟩⟩
  · exact Steps.replacement? o id _ _ _ h₁
  · exact (Steps.replacement? o id _ _ _ h₁).tail (.replaced hu)
  · exact Steps.replacement? o id _ _ _ h₁

theorem Steps.forM {f : α → Lower Unit} (hf : ∀ a, Steps (f a)) (l : List α) :
    Steps (l.forM f) := by
  induction l with
  | nil => exact .pure _
  | cons a l ih => exact .bind (hf a) fun _ => ih

theorem Steps.everyNode (o : LoweringOptions) : Steps (everyNode o) :=
  .bind .get fun _ => .bind (.ofGraph _) fun order => .forM (.step o) order

theorem Change.hidden_eq_nil (h : Change s s') (hv : s'.graph.hidden = []) :
    s.graph.hidden = [] := by
  cases h with
  | emitted _ hop h =>
    obtain ⟨-, -, -, -, -, rfl⟩ := Graph.makeNode_ok.mp h
    rw [Graph.declare_hidden] at hv
    exact (Graph.grow_hidden_eq_nil.mp hv).2
  | reported => exact hv
  | replaced h =>
    obtain ⟨_, rfl⟩ := Graph.replaceUses_frame h
    exact hv

theorem Path.hidden_eq_nil (h : Path s s') (hv : s'.graph.hidden = []) : s.graph.hidden = [] := by
  induction h using Relation.ReflTransGen.head_induction_on with
  | refl => exact hv
  | head hc _ ih => exact hc.hidden_eq_nil ih

theorem Path.reachable (h : Path s s') (hs : s.graph.Reachable) : s'.graph.Reachable := by
  induction h with
  | refl => exact hs
  | tail _ hc ih =>
    cases hc with
    | emitted _ _ h => exact .makeNode ih h
    | reported => exact ih
    | replaced h => exact .replaceUses ih h

/-- As long as no node is hidden, a lowered graph stays well-formed. -/
theorem Path.wellformed (h : Path s s') (hs : s.graph.Wellformed) (hv : s'.graph.hidden = []) :
    s'.graph.Wellformed := by
  induction h with
  | refl => exact hs
  | tail _ hc ih =>
    have hwf := ih (hc.hidden_eq_nil hv)
    cases hc with
    | emitted _ _ h =>
      obtain ⟨hlen, hin, hfree, -, -, rfl⟩ := Graph.makeNode_ok.mp h
      rw [Graph.declare_hidden] at hv
      exact hwf.grow hlen hin (Graph.grow_hidden_eq_nil.mp hv).1 hfree
    | reported => exact hwf
    | replaced h => exact hwf.replaceUses h

theorem Path.original (h : Path s s') (hs : s.graph.Reachable) {n : Node}
    (hop : n.op.isOriginal = true) (hn : n ∈ s'.graph.nodes) : n ∈ s.graph.nodes := by
  induction h with
  | refl => exact hn
  | tail hp hc ih =>
    refine ih ?_
    cases hc with
    | emitted _ hadded h =>
      obtain ⟨-, -, -, -, -, rfl⟩ := Graph.makeNode_ok.mp h
      rw [Graph.declare_nodes, Graph.grow_nodes,
        Graph.mem_placeNode (Path.reachable hp hs).sound.ascending] at hn
      rcases hn with rfl | ⟨hn, -⟩
      · cases hop.symm.trans hadded
      · exact hn
    | reported => exact hn
    | replaced h =>
      obtain ⟨_, rfl⟩ := Graph.replaceUses_frame h
      exact hn

theorem Change.tables_eq (h : Change s s') :
    s'.graph.inputs = s.graph.inputs ∧ s'.graph.outputs = s.graph.outputs := by
  cases h with
  | emitted _ hop h =>
    obtain ⟨-, -, -, -, -, rfl⟩ := Graph.makeNode_ok.mp h
    rw [Graph.declare_of_isOriginal hop]
    exact ⟨Graph.grow_inputs .., Graph.grow_outputs ..⟩
  | reported => exact ⟨rfl, rfl⟩
  | replaced h =>
    obtain ⟨_, rfl⟩ := Graph.replaceUses_frame h
    exact ⟨rfl, rfl⟩

theorem Path.tables_eq (h : Path s s') :
    s'.graph.inputs = s.graph.inputs ∧ s'.graph.outputs = s.graph.outputs := by
  induction h with
  | refl => exact ⟨rfl, rfl⟩
  | tail _ hc ih => exact ⟨hc.tables_eq.1.trans ih.1, hc.tables_eq.2.trans ih.2⟩

theorem Change.width_eq (h : Change s s') : s'.graph.width = s.graph.width := by
  cases h with
  | emitted _ hop h =>
    obtain ⟨-, -, -, -, -, rfl⟩ := Graph.makeNode_ok.mp h
    rw [Graph.declare_width, Graph.grow_width]
  | reported => rfl
  | replaced h =>
    obtain ⟨_, rfl⟩ := Graph.replaceUses_frame h
    rfl

theorem Path.width_eq (h : Path s s') : s'.graph.width = s.graph.width := by
  induction h with
  | refl => rfl
  | tail _ hc ih => exact hc.width_eq.trans ih

theorem Change.name_eq (h : Change s s') : s'.graph.name = s.graph.name := by
  cases h with
  | emitted _ hop h =>
    obtain ⟨-, -, -, -, -, rfl⟩ := Graph.makeNode_ok.mp h
    rw [Graph.declare_name, Graph.grow_name]
  | reported => rfl
  | replaced h =>
    obtain ⟨_, rfl⟩ := Graph.replaceUses_frame h
    rfl

theorem Path.name_eq (h : Path s s') : s'.graph.name = s.graph.name := by
  induction h with
  | refl => rfl
  | tail _ hc ih => exact hc.name_eq.trans ih

theorem Change.nodeCount_le (h : Change s s') : s.graph.nodeCount ≤ s'.graph.nodeCount := by
  cases h with
  | emitted _ hop h =>
    obtain ⟨-, -, -, -, -, rfl⟩ := Graph.makeNode_ok.mp h
    rw [Graph.declare_of_isOriginal hop]
    exact Graph.nodeCount_le_grow ..
  | reported => exact Nat.le_refl _
  | replaced h =>
    obtain ⟨_, rfl⟩ := Graph.replaceUses_frame h
    exact Nat.le_refl _

theorem Path.nodeCount_le (h : Path s s') : s.graph.nodeCount ≤ s'.graph.nodeCount := by
  induction h with
  | refl => exact Nat.le_refl _
  | tail _ hc ih => exact Nat.le_trans ih hc.nodeCount_le

/-- As long as the counter has room for every node added, a lowered graph is like a built one. -/
theorem Path.built (h : Path s s') (hs : s.graph.Built s.counters)
    (hroom : s.counters.peek s.graph.space + (s'.graph.nodeCount - s.graph.nodeCount) <
      NodeId.bound) : s'.graph.Built s'.counters := by
  induction h using Relation.ReflTransGen.head_induction_on with
  | refl => exact hs
  | @head t _ hc hp ih =>
    cases hc with
    | @emitted op operands id _ _ type hop h =>
      have hle := Path.nodeCount_le hp
      obtain ⟨-, -, -, hid, hcounters, hgraph⟩ := Graph.makeNode_ok.mp h
      rw [Graph.declare_of_isOriginal hop] at hgraph
      have hfresh := fun hmem => Nat.lt_irrefl _ (hid ▸ hs.id_lt _ hmem)
      have hcount := Graph.nodeCount_grow ⟨id, op⟩ operands hfresh
      rw [← hgraph] at hcount
      dsimp only at hle
      have hnext : t.counters.peek t.graph.space + 1 < NodeId.bound := by
        unfold NodeId at *
        omega
      refine ih (.makeNode hs hnext h) ?_
      dsimp only
      rw [hcounters, hid, hgraph, Graph.grow_space, IdCounters.peek_set hs.space_lt, ← hgraph,
        IdCounters.next_of_lt hnext, hcount]
      unfold NodeId at *
      omega
    | reported => exact ih hs hroom
    | replaced h =>
      refine ih (.replaceUses hs h) ?_
      obtain ⟨_, rfl⟩ := Graph.replaceUses_frame h
      exact hroom

end Lower

namespace Graph

open Lower

def loweringStart (g : Graph) (t : Typing) (c : IdCounters) : LoweringState :=
  ⟨g, t, .unchanged, c⟩

theorem runs_lower (g : Graph) (t : Typing) (o : LoweringOptions) (c : IdCounters) :
    Runs (everyNode o) (g.loweringStart t c) (g.lower t o c).1 (g.lower t o c).2 := rfl

theorem path_lower (g : Graph) (t : Typing) (o : LoweringOptions) (c : IdCounters) :
    Path (g.loweringStart t c) (g.lower t o c).2 := Steps.everyNode o _ _ _ (runs_lower g t o c)

end Graph

end CipherGraph

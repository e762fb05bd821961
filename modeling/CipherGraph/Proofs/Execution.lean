import CipherGraph.Execution.Basic
import CipherGraph.Proofs.Order
import CipherGraph.Proofs.Tables

/-! # Executions

The course of an execution: the nodes visited so far, the machine that came of it, and what a
failure at the next node says. Visits add one value, and freeing only takes values away.
-/

namespace CipherGraph

variable {S : Scheme}

section Primitives

variable {α : Type} {n : Native α} {r : Except ExecError α} {v v' : Vault}

theorem runs_atNode {node : NodeId} :
    Runs (n.atNode node) v r v' ↔ ∃ x, Runs n v x v' ∧ r = x.mapError (·.atNode node) := by
  unfold Runs
  have hrun : (n.atNode node).run.run v =
      ((n.run.run v).1.mapError (·.atNode node), (n.run.run v).2) := by
    change n.atNode node v = _
    unfold Native.atNode
    rcases n.run.run v with ⟨_ | _, _⟩ <;> rfl
  rw [hrun]
  constructor
  · rintro ⟨⟩
    exact ⟨_, rfl, rfl⟩
  · rintro ⟨x, hx, rfl⟩
    rw [hx]

theorem runs_alone :
    Runs n.alone v r v' ↔ ∃ x, Runs n v x v' ∧ r = x.mapError (·.alone) := by
  unfold Runs
  have hrun : n.alone.run.run v = ((n.run.run v).1.mapError (·.alone), (n.run.run v).2) := by
    change n.alone v = _
    unfold Native.alone
    rcases n.run.run v with ⟨_ | _, _⟩ <;> rfl
  rw [hrun]
  constructor
  · rintro ⟨⟩
    exact ⟨_, rfl, rfl⟩
  · rintro ⟨x, hx, rfl⟩
    rw [hx]

theorem runs_atNode_ok {node : NodeId} {a : α} :
    Runs (n.atNode node) v (.ok a) v' ↔ Runs n v (.ok a) v' := by
  rw [runs_atNode]
  constructor
  · rintro ⟨_ | b, hx, h⟩
    · cases h
    · cases h
      exact hx
  · intro h
    exact ⟨_, h, rfl⟩

theorem runs_alone_ok {a : α} : Runs n.alone v (.ok a) v' ↔ Runs n v (.ok a) v' := by
  rw [runs_alone]
  constructor
  · rintro ⟨_ | b, hx, h⟩
    · cases h
    · cases h
      exact hx
  · intro h
    exact ⟨_, h, rfl⟩

theorem runs_ofGraph_ok {x : Except GraphError α} {a : α} :
    Runs (Exec.ofGraph x) v (.ok a) v' ↔ x = .ok a ∧ v' = v := by
  cases x with
  | ok b =>
    rw [Exec.ofGraph, runs_pure, Except.ok.injEq, Except.ok.injEq]
    exact and_congr_left fun _ => eq_comm
  | error e => simp [Exec.ofGraph]

theorem runs_ofEval_ok {node : NodeId} {x : Except EvalError α} {a : α} :
    Runs (Exec.ofEval node x) v (.ok a) v' ↔ x = .ok a ∧ v' = v := by
  cases x with
  | ok b =>
    rw [Exec.ofEval, runs_pure, Except.ok.injEq, Except.ok.injEq]
    exact and_congr_left fun _ => eq_comm
  | error e => simp [Exec.ofEval]

end Primitives

namespace Machine

variable {m m' m'' : Machine S} {left left' : Remaining} {v v' v'' : Vault} {node : NodeId}
  {order : List NodeId}

/-- A machine that holds no more than another. -/
structure Trims (m m' : Machine S) : Prop where
  graph : m'.graph = m.graph
  keys : m'.keys = m.keys
  values : ∀ id x, m'.values.find? id = some x → m.values.find? id = some x

theorem Trims.refl (m : Machine S) : Trims m m := ⟨rfl, rfl, fun _ _ h => h⟩

theorem Trims.trans (h : Trims m m') (h' : Trims m' m'') : Trims m m'' :=
  ⟨h'.graph.trans h.graph, h'.keys.trans h.keys, fun id x hx => h.values id x (h'.values id x hx)⟩

theorem trims_free (m : Machine S) (node : NodeId) : Trims m (m.free node) := by
  refine ⟨rfl, rfl, ?_⟩
  intro id x h
  rw [free, OrderedMap.find?_erase] at h
  split at h
  · cases h
  · exact h

theorem trims_freeOperands (m : Machine S) (left : Remaining) (operands : List NodeId) :
    Trims m (m.freeOperands left operands).1 := by
  induction operands generalizing m left with
  | nil => exact .refl m
  | cons operand rest ih =>
    unfold freeOperands
    split
    · exact ih m left
    · dsimp only
      split
      · exact (trims_free m operand).trans (ih _ _)
      · exact ih m _

theorem visit_input {name : String} {type : ValueClass}
    (h : m.graph.op? node = .ok (.input name type)) :
    m.visit node = if m.values.contains node then return m
      else throw (.configuration (.unboundInput name)) := by
  rw [visit, h]
  rfl

theorem visit_of_not_input {op : Operation} (h : m.graph.op? node = .ok op)
    (hop : ∀ name type, op ≠ .input name type) :
    m.visit node = do return m.put node (← m.evaluate node op) := by
  rw [visit, h]
  cases op with
  | input name type => exact absurd rfl (hop name type)
  | _ => rfl

/-- What a visit adds: a value of the node, unless it is an input. -/
theorem visit_ok (h : Runs (m.visit node) v (.ok m') v') :
    (m' = m ∧ v' = v ∧ m.values.contains node = true ∧
      ∃ name type, m.graph.op? node = .ok (.input name type)) ∨
    ∃ op value, m.graph.op? node = .ok op ∧ (∀ name type, op ≠ .input name type) ∧
      Runs (m.evaluate node op) v (.ok value) v' ∧ m' = m.put node value := by
  cases hop : m.graph.op? node with
  | error e =>
    rw [visit, hop] at h
    obtain ⟨_, _, h, -⟩ := runs_bind_ok.mp h
    cases (runs_throw.mp h).1
  | ok op =>
    by_cases hinput : ∃ name type, op = .input name type
    · obtain ⟨name, type, rfl⟩ := hinput
      rw [visit_input hop] at h
      split at h
      · next hheld =>
        obtain ⟨hm, hv⟩ := runs_pure.mp h
        cases hm
        exact .inl ⟨rfl, hv, hheld, name, type, rfl⟩
      · cases (runs_throw.mp h).1
    · have hinput : ∀ name type, op ≠ .input name type := fun name type heq =>
        hinput ⟨name, type, heq⟩
      rw [visit_of_not_input hop hinput] at h
      obtain ⟨value, _, hvalue, hput⟩ := runs_bind_ok.mp h
      obtain ⟨hm, rfl⟩ := runs_pure.mp hput
      cases hm
      exact .inr ⟨op, value, rfl, hinput, hvalue, rfl⟩

theorem visit_error {e : ExecError} (h : Runs (m.visit node) v (.error e) v') :
    (∃ fault, e = .graph fault) ∨ (∃ name, e = .configuration (.unboundInput name)) ∨
      ∃ op, m.graph.op? node = .ok op ∧ (∀ name type, op ≠ .input name type) ∧
        Runs (m.evaluate node op) v (.error e) v' := by
  cases hop : m.graph.op? node with
  | error fault =>
    rw [visit, hop] at h
    rcases runs_bind_error.mp h with h | ⟨_, _, h, -⟩
    · cases (runs_throw.mp h).1
      exact .inl ⟨fault, rfl⟩
    · cases (runs_throw.mp h).1
  | ok op =>
    by_cases hinput : ∃ name type, op = .input name type
    · obtain ⟨name, type, rfl⟩ := hinput
      rw [visit_input hop] at h
      split at h
      · cases (runs_pure.mp h).1
      · cases (runs_throw.mp h).1
        exact .inr (.inl ⟨name, rfl⟩)
    · have hinput : ∀ name type, op ≠ .input name type := fun name type heq =>
        hinput ⟨name, type, heq⟩
      rw [visit_of_not_input hop hinput] at h
      rcases runs_bind_error.mp h with h | ⟨_, _, -, h⟩
      · exact .inr (.inr ⟨op, rfl, hinput, h⟩)
      · cases (runs_pure.mp h).1

theorem visit_frame (h : Runs (m.visit node) v (.ok m') v') :
    m'.graph = m.graph ∧ m'.keys = m.keys := by
  rcases visit_ok h with ⟨rfl, -⟩ | ⟨_, _, -, -, -, rfl⟩ <;> exact ⟨rfl, rfl⟩

theorem visit_held (h : Runs (m.visit node) v (.ok m') v') :
    ∃ x, m'.values.find? node = some x := by
  rcases visit_ok h with ⟨rfl, -, hheld, -⟩ | ⟨_, x, -, -, -, rfl⟩
  · exact Option.isSome_iff_exists.mp hheld
  · exact ⟨x, OrderedMap.find?_insert_self⟩

theorem visit_grows (h : Runs (m.visit node) v (.ok m') v') {id : NodeId}
    (hid : ∃ x, m.values.find? id = some x) : ∃ x, m'.values.find? id = some x := by
  rcases visit_ok h with ⟨rfl, -⟩ | ⟨_, x, -, -, -, rfl⟩
  · exact hid
  · rw [put, OrderedMap.find?_insert]
    split
    · exact ⟨x, rfl⟩
    · exact hid

theorem runs_value_ok {x : Value S} :
    Runs (m.value node) v (.ok x) v' ↔ m.values.find? node = some x ∧ v' = v := by
  unfold Machine.value
  cases m.values.find? node with
  | none => simp
  | some y =>
    rw [runs_pure, Except.ok.injEq, Option.some.injEq]
    exact and_congr_left fun _ => eq_comm

theorem evaluate_arithmetic {op : Arithmetic} {lhs rhs : NodeId}
    (h : m.graph.operands node = [lhs, rhs]) :
    m.evaluate node (.arithmetic op) =
      (do m.arithmetic node op (← m.value lhs) (← m.value rhs)) := by
  unfold evaluate
  rw [h]

theorem evaluate_unary {op : Operation} {operand : NodeId}
    (h : m.graph.operands node = [operand]) (hop : op.arity = 1)
    (haggregate : ∀ a, op ≠ .aggregate a) :
    m.evaluate node op = (do m.unary node op (← m.value operand)) := by
  unfold evaluate
  rw [h]
  cases op with
  | aggregate a => exact absurd rfl (haggregate a)
  | input | constant | arithmetic => cases hop
  | _ => rfl

theorem evaluate_constant {c : Constant} :
    m.evaluate node (.constant c) = m.constant node c := by
  rw [evaluate]

theorem evaluate_ok {op : Operation} {x : Value S}
    (harity : (m.graph.operands node).length = op.arity)
    (hinput : ∀ name type, op ≠ .input name type) (h : Runs (m.evaluate node op) v (.ok x) v') :
    (∃ c, op = .constant c ∧ Runs (m.constant node c) v (.ok x) v') ∨
    (∃ a lhs rhs y z, op = .arithmetic a ∧ m.graph.operands node = [lhs, rhs] ∧
      m.values.find? lhs = some y ∧ m.values.find? rhs = some z ∧
        Runs (m.arithmetic node a y z) v (.ok x) v') ∨
    ∃ operand y, m.graph.operands node = [operand] ∧ m.values.find? operand = some y ∧
      Runs (m.unary node op y) v (.ok x) v' := by
  cases op with
  | input name type => exact absurd rfl (hinput name type)
  | aggregate a =>
    rw [evaluate] at h
    cases (runs_throw.mp h).1
  | constant c =>
    rw [evaluate_constant] at h
    exact .inl ⟨c, rfl, h⟩
  | arithmetic a =>
    obtain ⟨lhs, rhs, hoperands⟩ := List.length_eq_two.mp harity
    rw [evaluate_arithmetic hoperands] at h
    obtain ⟨y, _, h₁, hsecond⟩ := runs_bind_ok.mp h
    obtain ⟨hy, rfl⟩ := runs_value_ok.mp h₁
    obtain ⟨z, _, h₂, hresult⟩ := runs_bind_ok.mp hsecond
    obtain ⟨hz, rfl⟩ := runs_value_ok.mp h₂
    exact .inr (.inl ⟨a, lhs, rhs, y, z, rfl, hoperands, hy, hz, hresult⟩)
  | _ =>
    obtain ⟨operand, hoperands⟩ := List.length_eq_one_iff.mp harity
    rw [evaluate_unary hoperands rfl (by simp)] at h
    obtain ⟨y, _, h₁, hrest⟩ := runs_bind_ok.mp h
    obtain ⟨hy, rfl⟩ := runs_value_ok.mp h₁
    exact .inr (.inr ⟨operand, y, hoperands, hy, hrest⟩)

theorem evaluate_cases {op : Operation} {r : Except ExecError (Value S)}
    (harity : (m.graph.operands node).length = op.arity)
    (hinput : ∀ name type, op ≠ .input name type)
    (hheld : ∀ o ∈ m.graph.operands node, ∃ x, m.values.find? o = some x)
    (h : Runs (m.evaluate node op) v r v') :
    (∃ a, op = .aggregate a) ∨ (∃ c, op = .constant c ∧ Runs (m.constant node c) v r v') ∨
    (∃ a lhs rhs y z, op = .arithmetic a ∧ m.graph.operands node = [lhs, rhs] ∧
      m.values.find? lhs = some y ∧ m.values.find? rhs = some z ∧
        Runs (m.arithmetic node a y z) v r v') ∨
    ∃ operand y, op.arity = 1 ∧ (∀ a, op ≠ .aggregate a) ∧ m.graph.operands node = [operand] ∧
      m.values.find? operand = some y ∧ Runs (m.unary node op y) v r v' := by
  cases op with
  | input name type => exact absurd rfl (hinput name type)
  | aggregate a => exact .inl ⟨a, rfl⟩
  | constant c =>
    rw [evaluate_constant] at h
    exact .inr (.inl ⟨c, rfl, h⟩)
  | arithmetic a =>
    obtain ⟨lhs, rhs, hoperands⟩ := List.length_eq_two.mp harity
    obtain ⟨y, hy⟩ := hheld lhs (by simp [hoperands])
    obtain ⟨z, hz⟩ := hheld rhs (by simp [hoperands])
    rw [evaluate_arithmetic hoperands, runs_bind_of_ok (runs_value_ok.mpr ⟨hy, rfl⟩),
      runs_bind_of_ok (runs_value_ok.mpr ⟨hz, rfl⟩)] at h
    exact .inr (.inr (.inl ⟨a, lhs, rhs, y, z, rfl, hoperands, hy, hz, h⟩))
  | _ =>
    obtain ⟨operand, hoperands⟩ := List.length_eq_one_iff.mp harity
    obtain ⟨y, hy⟩ := hheld operand (by simp [hoperands])
    rw [evaluate_unary hoperands rfl (by simp), runs_bind_of_ok (runs_value_ok.mpr ⟨hy, rfl⟩)] at h
    exact .inr (.inr (.inr ⟨operand, y, rfl, by simp, hoperands, hy, h⟩))

/-- Nodes are visited in order, and what nobody will read any more is freed. -/
inductive Passes : Machine S → Remaining → Vault → List NodeId → Machine S → Remaining → Vault →
    Prop where
  | nil (m : Machine S) (left : Remaining) (v : Vault) : Passes m left v [] m left v
  | cons {m m₁ m' : Machine S} {left left' : Remaining} {v v₁ v' : Vault} {node : NodeId}
      {rest : List NodeId} (h : Runs (m.visit node) v (.ok m₁) v₁)
      (hrest : Passes (m₁.freeOperands left (m₁.graph.operands node)).1
        (m₁.freeOperands left (m₁.graph.operands node)).2 v₁ rest m' left' v') :
      Passes m left v (node :: rest) m' left' v'

theorem Passes.induct {P : Machine S → Prop} (h : Passes m left v order m' left' v') (hm : P m)
    (hvisit : ∀ m m' v v' node, node ∈ order → P m → Runs (m.visit node) v (.ok m') v' → P m')
    (htrim : ∀ m m', P m → Trims m m' → P m') : P m' := by
  induction h with
  | nil => exact hm
  | @cons m m₁ _ left _ v v₁ _ node rest h _ ih =>
    have h₁ := hvisit m m₁ v v₁ node List.mem_cons_self hm h
    exact ih (htrim _ _ h₁ (trims_freeOperands ..))
      fun m m' v v' k hk => hvisit m m' v v' k (List.mem_cons_of_mem node hk)

theorem Passes.frame (h : Passes m left v order m' left' v') :
    m'.graph = m.graph ∧ m'.keys = m.keys :=
  h.induct (P := fun k => k.graph = m.graph ∧ k.keys = m.keys) ⟨rfl, rfl⟩
    (fun _ _ _ _ _ _ hm hv =>
      ⟨(visit_frame hv).1.trans hm.1, (visit_frame hv).2.trans hm.2⟩)
    fun _ _ hm ht => ⟨ht.graph.trans hm.1, ht.keys.trans hm.2⟩

theorem Passes.split {before after : List NodeId}
    (h : Passes m left v (before ++ after) m' left' v') :
    ∃ m₁ left₁ v₁, Passes m left v before m₁ left₁ v₁ ∧ Passes m₁ left₁ v₁ after m' left' v' := by
  induction before generalizing m left v with
  | nil => exact ⟨m, left, v, .nil .., h⟩
  | cons node before ih =>
    cases h with
    | cons hvisit hrest =>
      obtain ⟨m₁, left₁, v₁, hbefore, hafter⟩ := ih hrest
      exact ⟨m₁, left₁, v₁, .cons hvisit hbefore, hafter⟩

theorem visitAll_of_visit_ok {rest : List NodeId} (h : Runs (m.visit node) v (.ok m') v') :
    (m.visitAll left (node :: rest)).run v =
      ((m'.freeOperands left (m'.graph.operands node)).1.visitAll
        (m'.freeOperands left (m'.graph.operands node)).2 rest).run v' := by
  rw [visitAll, StateT.run_bind]
  unfold Runs at h
  rw [h]
  rfl

theorem visitAll_of_visit_error {rest : List NodeId} {e : ExecError}
    (h : Runs (m.visit node) v (.error e) v') :
    (m.visitAll left (node :: rest)).run v = ((m, .error e), v') := by
  rw [visitAll, StateT.run_bind]
  unfold Runs at h
  rw [h]
  rfl

theorem visitAll_ok : (m.visitAll left order).run v = ((m', .ok ()), v') ↔
    ∃ left', Passes m left v order m' left' v' := by
  induction order generalizing m left v with
  | nil =>
    constructor
    · rintro ⟨⟩
      exact ⟨left, .nil ..⟩
    · rintro ⟨left', ⟨⟩⟩
      rfl
  | cons node rest ih =>
    obtain ⟨r, v₁, h⟩ := runs_exists (m.visit node) v
    constructor
    · intro hall
      cases r with
      | error e =>
        rw [visitAll_of_visit_error h] at hall
        cases hall
      | ok m₁ =>
        rw [visitAll_of_visit_ok h] at hall
        obtain ⟨left', hrest⟩ := ih.mp hall
        exact ⟨left', .cons h hrest⟩
    · rintro ⟨left', hpass⟩
      cases hpass with
      | cons h₁ hrest =>
        rw [visitAll_of_visit_ok h₁]
        exact ih.mpr ⟨left', hrest⟩

theorem visitAll_error {e : ExecError} :
    (m.visitAll left order).run v = ((m', .error e), v') ↔
      ∃ before node after left' v₁, order = before ++ node :: after ∧
        Passes m left v before m' left' v₁ ∧ Runs (m'.visit node) v₁ (.error e) v' := by
  induction order generalizing m left v with
  | nil =>
    constructor
    · rintro ⟨⟩
    · rintro ⟨before, node, after, _, _, h, -⟩
      simp at h
  | cons node rest ih =>
    obtain ⟨r, v₁, h⟩ := runs_exists (m.visit node) v
    constructor
    · intro hall
      cases r with
      | error e' =>
        rw [visitAll_of_visit_error h] at hall
        cases hall
        exact ⟨[], node, rest, left, v, rfl, .nil .., h⟩
      | ok m₁ =>
        rw [visitAll_of_visit_ok h] at hall
        obtain ⟨before, last, after, left', v₂, rfl, hpass, herror⟩ := ih.mp hall
        exact ⟨node :: before, last, after, left', v₂, rfl, .cons h hpass, herror⟩
    · rintro ⟨before, last, after, left', v₂, heq, hpass, herror⟩
      cases hpass with
      | nil =>
        cases heq
        exact visitAll_of_visit_error herror
      | @cons _ m₁ _ _ _ _ v₃ _ _ before h₁ hrest =>
        cases heq
        rw [visitAll_of_visit_ok h₁]
        exact ih.mpr ⟨before, last, after, left', v₂, rfl, hrest, herror⟩

theorem bind_eq_ok {name : String} {x : Value S} :
    m.bind name x = .ok m' ↔ ∃ node, m.graph.inputs.find? name = some node ∧
      (∀ c, x = .cipher c → S.keyId c = m.keys.keyId) ∧ m.put node x = m' := by
  unfold Machine.bind
  cases m.graph.inputs.find? name with
  | none => simp
  | some node =>
    cases x with
    | cipher c => by_cases hkey : S.keyId c = m.keys.keyId <;> simp [hkey]
    | plain | raw => simp

theorem bind_error {name : String} {x : Value S} {e : ExecError} (h : m.bind name x = .error e) :
    ∃ fault, e = .configuration fault := by
  unfold Machine.bind at h
  split at h
  · cases h
    exact ⟨_, rfl⟩
  · split at h
    · split at h
      · cases h
      · cases h
        exact ⟨_, rfl⟩
    · cases h

theorem bindAll_induct {P : Machine S → Prop} {l : List (String × Value S)}
    (h : m.bindAll l = (m', .ok ())) (hm : P m)
    (hbind : ∀ m node name x, (name, x) ∈ l → P m → m.graph.inputs.find? name = some node →
      (∀ c, x = .cipher c → S.keyId c = m.keys.keyId) → P (m.put node x)) : P m' := by
  induction l generalizing m with
  | nil =>
    cases h
    exact hm
  | cons e l ih =>
    obtain ⟨name, x⟩ := e
    unfold bindAll at h
    split at h
    · next m₁ h₁ =>
      obtain ⟨node, hnode, hkey, rfl⟩ := bind_eq_ok.mp h₁
      exact ih h (hbind m node name x List.mem_cons_self hm hnode hkey)
        fun m node name x hx => hbind m node name x (List.mem_cons_of_mem _ hx)
    · cases h

theorem bindAll_cons {l : List (String × Value S)} {name : String} {x : Value S}
    (hnode : m.graph.inputs.find? name = some node)
    (hkey : ∀ c, x = .cipher c → S.keyId c = m.keys.keyId) :
    m.bindAll ((name, x) :: l) = (m.put node x).bindAll l := by
  rw [bindAll, bind_eq_ok.mpr ⟨node, hnode, hkey, rfl⟩]

theorem bindAll_frame {l : List (String × Value S)} (h : m.bindAll l = (m', .ok ())) :
    m'.graph = m.graph ∧ m'.keys = m.keys :=
  bindAll_induct (P := fun k => k.graph = m.graph ∧ k.keys = m.keys) h ⟨rfl, rfl⟩
    fun _ _ _ _ _ hm _ _ => hm

theorem bindAll_error {l : List (String × Value S)} {e : ExecError}
    (h : m.bindAll l = (m', .error e)) : ∃ fault, e = .configuration fault := by
  induction l generalizing m with
  | nil => cases h
  | cons x l ih =>
    obtain ⟨name, x⟩ := x
    unfold bindAll at h
    split at h
    · exact ih h
    · next h₁ =>
      cases h
      exact bind_error h₁

theorem collect_error {e : ExecError} {found : SchemeValuation S} {l : List (String × NodeId)}
    {out : SchemeValuation S} (h : m.collect v l found = (out, .error e)) :
    ∃ name, e = .absent (.outputValue name) ∨ e = .absent (.outputReleased name) := by
  induction l generalizing found with
  | nil => cases h
  | cons x l ih =>
    obtain ⟨name, node⟩ := x
    unfold collect at h
    split at h
    · cases h
      exact ⟨name, .inl rfl⟩
    · split at h
      · exact ih h
      · cases h
        exact ⟨name, .inr rfl⟩
    · exact ih h

end Machine

open Machine

variable {keys : Public S.kind} {g : Graph} {inputs : SchemeValuation S} {v v' : Vault}

/-- A machine whose inputs are bound. -/
structure Starts (keys : Public S.kind) (g : Graph) (inputs : SchemeValuation S)
    (m : Machine S) : Prop where
  fits : g.width ≤ keys.context.slotCount ∧ keys.context.slotCount % g.width = 0
  bound : (⟨g, keys, ∅⟩ : Machine S).bindAll inputs.entries = (m, .ok ())

/-- The machine with which an execution comes to a node. -/
def Reaches (keys : Public S.kind) (g : Graph) (inputs : SchemeValuation S) (v : Vault)
    (node : NodeId) (m : Machine S) (v' : Vault) : Prop :=
  ∃ start before after left, Starts keys g inputs start ∧
    g.forwardOrder = .ok (before ++ node :: after) ∧
      Passes start g.useCounts v before m left v'

theorem Starts.frame {m : Machine S} (h : Starts keys g inputs m) : m.graph = g ∧ m.keys = keys :=
  bindAll_frame h.bound

theorem Reaches.frame {node : NodeId} {m : Machine S} (h : Reaches keys g inputs v node m v') :
    m.graph = g ∧ m.keys = keys := by
  obtain ⟨start, _, _, _, hstart, -, hpass⟩ := h
  exact ⟨hpass.frame.1.trans hstart.frame.1, hpass.frame.2.trans hstart.frame.2⟩

theorem Starts.reaches {start m : Machine S} (h : Starts keys g inputs start)
    {order rest : List NodeId} (ho : g.forwardOrder = .ok (order ++ rest)) {left : Remaining}
    (hpass : Passes start g.useCounts v order m left v') {node : NodeId} (hnode : node ∈ order) :
    ∃ k v₁ k' v₂, Reaches keys g inputs v node k v₁ ∧ Runs (k.visit node) v₁ (.ok k') v₂ := by
  obtain ⟨before, after, rfl⟩ := List.append_of_mem hnode
  obtain ⟨k, left₁, v₁, hbefore, hafter⟩ := hpass.split
  cases hafter with
  | cons hvisit _ =>
    rw [List.append_assoc] at ho
    exact ⟨k, v₁, _, _, ⟨start, before, after ++ rest, left₁, h, ho, hbefore⟩, hvisit⟩

theorem create_ok {m : Machine S} : Machine.create g keys = .ok m ↔
    (g.width ≤ keys.context.slotCount ∧ keys.context.slotCount % g.width = 0) ∧
      ⟨g, keys, ∅⟩ = m := by
  have hfits : ¬ (g.width > keys.context.slotCount ∨ keys.context.slotCount % g.width ≠ 0) ↔
      g.width ≤ keys.context.slotCount ∧ keys.context.slotCount % g.width = 0 := by
    rw [not_or, Nat.not_lt, not_not]
  rw [← hfits]
  unfold Machine.create
  dsimp only
  split
  · next h => simp [h]
  · next h => simp [h]

theorem create_error {e : ExecError} (h : Machine.create g keys = .error e) :
    ∃ fault, e = .configuration fault := by
  unfold Machine.create at h
  dsimp only at h
  split at h <;> cases h
  exact ⟨_, rfl⟩

theorem runs_execute_of_starts {start : Machine S} (h : Starts keys g inputs start)
    {r : Except ExecError (SchemeValuation S)} :
    Runs (execute S keys g inputs) v r v' ↔ ∃ m, start.run.run v = ((m, r), v') := by
  have hcreate := create_ok.mpr ⟨h.fits, rfl⟩
  unfold execute
  rw [runs_bind_of_ok (runs_liftM.mpr ⟨hcreate.symm, rfl⟩)]
  simp only [h.bound]
  rw [runs_bind_of_ok (runs_liftM_state.mpr ⟨rfl, rfl⟩)]
  constructor
  · intro h
    obtain ⟨rfl, rfl⟩ := runs_liftM.mp h
    exact ⟨(start.run.run v).1.1, rfl⟩
  · rintro ⟨m, hm⟩
    rw [hm]
    exact runs_liftM.mpr ⟨rfl, rfl⟩

/-- An execution that does not get that far fails for its configuration, and nothing happens. -/
theorem starts_or_configuration {r : Except ExecError (SchemeValuation S)}
    (h : Runs (execute S keys g inputs) v r v') :
    (∃ start, Starts keys g inputs start) ∨
      ∃ fault, r = .error (.configuration fault) ∧ v' = v := by
  unfold execute at h
  rcases runs_bind h with ⟨e, hcreate, rfl⟩ | ⟨m, _, hcreate, hrest⟩
  · obtain ⟨he, rfl⟩ := runs_liftM.mp hcreate
    obtain ⟨fault, rfl⟩ := create_error he.symm
    exact .inr ⟨fault, rfl, rfl⟩
  · obtain ⟨hm, rfl⟩ := runs_liftM.mp hcreate
    obtain ⟨hfits, rfl⟩ := create_ok.mp hm.symm
    split at hrest
    · next e hbound =>
      obtain ⟨fault, rfl⟩ := bindAll_error hbound
      exact .inr ⟨fault, runs_throw.mp hrest⟩
    · next start hbound => exact .inl ⟨start, hfits, hbound⟩

theorem run_of_failure {m m' : Machine S} {order : List NodeId} {e : ExecError}
    (ho : m.graph.forwardOrder = .ok order)
    (h : (m.visitAll m.graph.useCounts order).run v = ((m', .error e), v')) :
    m.run.run v = ((m', .error e), v') := by
  unfold Machine.run
  rw [ho]
  dsimp only
  rw [StateT.run_bind]
  change StateT.run _ ((m.visitAll m.graph.useCounts order).run v).2 = _
  rw [h]
  rfl

theorem run_of_visited {m m' : Machine S} {order : List NodeId}
    (ho : m.graph.forwardOrder = .ok order)
    (h : (m.visitAll m.graph.useCounts order).run v = ((m', .ok ()), v')) :
    m.run.run v = ((m', (m'.outputs v').2.map fun _ => (m'.outputs v').1), v') := by
  unfold Machine.run
  rw [ho]
  dsimp only
  rw [StateT.run_bind]
  change StateT.run _ ((m.visitAll m.graph.useCounts order).run v).2 = _
  rw [h]
  dsimp only
  rw [StateT.run_bind]
  simp only [StateT.run_get, pure_bind]
  rcases m'.outputs v' with ⟨found, _ | _⟩ <;> rfl

/-- An execution visits all nodes and collects the outputs, or stops at a node that fails. -/
theorem runs_execute_of_order {start : Machine S} (hstart : Starts keys g inputs start)
    {order : List NodeId} (ho : g.forwardOrder = .ok order)
    {r : Except ExecError (SchemeValuation S)} :
    Runs (execute S keys g inputs) v r v' ↔
      (∃ m left, Passes start g.useCounts v order m left v' ∧
        r = (m.outputs v').2.map fun _ => (m.outputs v').1) ∨
      ∃ e m before node after left v₁, r = .error e ∧ order = before ++ node :: after ∧
        Passes start g.useCounts v before m left v₁ ∧ Runs (m.visit node) v₁ (.error e) v' := by
  have hgraph := hstart.frame.1
  rw [runs_execute_of_starts hstart]
  rw [← hgraph] at ho ⊢
  constructor
  · rintro ⟨m, h⟩
    rcases hall : (start.visitAll start.graph.useCounts order).run v with ⟨⟨m', e | _⟩, v₁⟩
    · rw [run_of_failure ho hall] at h
      cases h
      obtain ⟨before, node, after, left, v₂, heq, hpass, he⟩ := visitAll_error.mp hall
      exact .inr ⟨e, _, before, node, after, left, v₂, rfl, heq, hpass, he⟩
    · rw [run_of_visited ho hall] at h
      cases h
      obtain ⟨left, hpass⟩ := visitAll_ok.mp hall
      exact .inl ⟨_, left, hpass, rfl⟩
  · rintro (⟨m, left, hpass, rfl⟩ | ⟨e, m, before, node, after, left, v₁, rfl, heq, hpass, he⟩)
    · exact ⟨m, run_of_visited ho (visitAll_ok.mpr ⟨left, hpass⟩)⟩
    · have hall := visitAll_error.mpr ⟨before, node, after, left, v₁, heq, hpass, he⟩
      exact ⟨m, run_of_failure ho hall⟩

theorem Reaches.execute_error {node : NodeId} {m : Machine S} {v₁ : Vault} {e : ExecError}
    (h : Reaches keys g inputs v node m v₁) (he : Runs (m.visit node) v₁ (.error e) v') :
    Runs (execute S keys g inputs) v (.error e) v' := by
  obtain ⟨start, before, after, left, hstart, ho, hpass⟩ := h
  exact (runs_execute_of_order hstart ho).mpr
    (.inr ⟨e, m, before, node, after, left, v₁, rfl, rfl, hpass, he⟩)

/-- What an execution whose inputs are bound can fail in: the order, a visit, and in the end the
outputs. -/
theorem Starts.failure {start : Machine S} (hstart : Starts keys g inputs start) {e : ExecError}
    (h : Runs (execute S keys g inputs) v (.error e) v') :
    (∃ fault, e = .graph fault) ∨
      (∃ order left m out, g.forwardOrder = .ok order ∧
        Passes start g.useCounts v order m left v' ∧ m.outputs v' = (out, .error e)) ∨
          ∃ node m v₁, Reaches keys g inputs v node m v₁ ∧
            Runs (m.visit node) v₁ (.error e) v' := by
  cases ho : g.forwardOrder with
  | error fault =>
    obtain ⟨m, hm⟩ := (runs_execute_of_starts hstart).mp h
    unfold Machine.run at hm
    rw [hstart.frame.1, ho] at hm
    cases hm
    exact .inl ⟨fault, rfl⟩
  | ok order =>
    rcases (runs_execute_of_order hstart ho).mp h with
      ⟨m, left, hpass, hr⟩ | ⟨_, m, before, node, after, left, v₁, ⟨⟩, rfl, hpass, he⟩
    · rcases hout : m.outputs v' with ⟨out, e' | _⟩ <;> rw [hout] at hr <;> cases hr
      exact .inr (.inl ⟨order, left, m, out, rfl, hpass, hout⟩)
    · exact .inr (.inr ⟨node, m, v₁, ⟨start, before, after, left, hstart, ho, hpass⟩, he⟩)

/-- What an execution can fail in: the start, the order, a visit, and in the end the outputs. -/
theorem execute_failure {e : ExecError} (h : Runs (execute S keys g inputs) v (.error e) v') :
    (∃ fault, e = .configuration fault) ∨ (∃ fault, e = .graph fault) ∨
      (∃ start order left m out, Starts keys g inputs start ∧ g.forwardOrder = .ok order ∧
        Passes start g.useCounts v order m left v' ∧ m.outputs v' = (out, .error e)) ∨
          ∃ node m v₁, Reaches keys g inputs v node m v₁ ∧
            Runs (m.visit node) v₁ (.error e) v' := by
  obtain ⟨start, hstart⟩ | ⟨fault, hfault, -⟩ := starts_or_configuration h
  · rcases hstart.failure h with hgraph | ⟨order, left, m, out, ho, hpass, hout⟩ | hvisit
    · exact .inr (.inl hgraph)
    · exact .inr (.inr (.inl ⟨start, order, left, m, out, hstart, ho, hpass, hout⟩))
    · exact .inr (.inr (.inr hvisit))
  · cases hfault
    exact .inl ⟨fault, rfl⟩

/-- What fails besides visits: the start, the order and the outputs. -/
theorem execute_error {e : ExecError} (h : Runs (execute S keys g inputs) v (.error e) v') :
    (∃ fault, e = .configuration fault) ∨ (∃ fault, e = .graph fault) ∨
      (∃ name, e = .absent (.outputValue name) ∨ e = .absent (.outputReleased name)) ∨
        ∃ node m v₁, Reaches keys g inputs v node m v₁ ∧
          Runs (m.visit node) v₁ (.error e) v' := by
  rcases execute_failure h with h | h | ⟨_, _, _, _, _, -, -, -, hout⟩ | h
  · exact .inl h
  · exact .inr (.inl h)
  · exact .inr (.inr (.inl (collect_error hout)))
  · exact .inr (.inr (.inr h))

theorem execute_ok {out : SchemeValuation S}
    (h : Runs (execute S keys g inputs) v (.ok out) v') :
      ∃ start order left m, Starts keys g inputs start ∧ g.forwardOrder = .ok order ∧
        Passes start g.useCounts v order m left v' ∧ m.outputs v' = (out, .ok ()) := by
  obtain ⟨start, hstart⟩ | ⟨_, hr, -⟩ := starts_or_configuration h
  · cases ho : g.forwardOrder with
    | error fault =>
      obtain ⟨m, hm⟩ := (runs_execute_of_starts hstart).mp h
      unfold Machine.run at hm
      rw [hstart.frame.1, ho] at hm
      cases hm
    | ok order =>
      rcases (runs_execute_of_order hstart ho).mp h with
        ⟨m, left, hpass, hr⟩ | ⟨_, _, _, _, _, _, _, hr, -⟩
      · refine ⟨start, order, left, m, hstart, rfl, hpass, ?_⟩
        rcases hout : m.outputs v' with ⟨found, _ | _⟩ <;> rw [hout] at hr <;> cases hr
        rfl
      · cases hr
  · cases hr

end CipherGraph

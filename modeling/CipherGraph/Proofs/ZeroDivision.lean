import CipherGraph.Proofs.Availability
import CipherGraph.Proofs.GateExactness
import CipherGraph.Proofs.Primitives

/-! # Division by zero

A gate-level execution fails in a division by zero exactly where it comes to one that can be seen:
a clear or an encoded divisor that stands for zero. It then names the first such node.
-/

namespace CipherGraph

open Gates

variable {b scaleBits : Nat} {g : Graph} {I : Interpretation (BitVec b)} {id : NodeId}

namespace Graph

/-- The node divides in the clear, or an encrypted value by an encoded one, and the divisor stands
for zero. -/
def DividesByZero (g : Graph) (I : Interpretation (BitVec b)) (scaleBits : Nat) (id : NodeId) :
    Prop :=
  ⟨id, .arithmetic .div⟩ ∈ g.nodes ∧ ∃ lhs rhs a d, g.operands id = [lhs, rhs] ∧
    g.Denotes I scaleBits lhs a ∧ g.Denotes I scaleBits rhs d ∧
      (a.type = .raw ∧ d.type = .raw ∨ a.type = .cipher ∧ d.type = .plain) ∧ d.value = 0

def FirstDividesByZero (g : Graph) (I : Interpretation (BitVec b)) (scaleBits : Nat)
    (id : NodeId) : Prop :=
  g.DividesByZero I scaleBits id ∧ ∃ before after, g.forwardOrder = .ok (before ++ id :: after) ∧
    ∀ k ∈ before, ¬ g.DividesByZero I scaleBits k

theorem FirstDividesByZero.unique {id' : NodeId} (h : g.FirstDividesByZero I scaleBits id)
    (h' : g.FirstDividesByZero I scaleBits id') : id = id' := by
  obtain ⟨hid, before, after, ho, hbefore⟩ := h
  obtain ⟨hid', before', after', ho', hbefore'⟩ := h'
  have heq := Except.ok.inj (ho.symm.trans ho')
  rcases List.append_eq_append_iff.mp heq with ⟨l, rfl, hl⟩ | ⟨l, rfl, hl⟩
  · cases l with
    | nil => exact (List.cons.inj hl).1
    | cons k l =>
      cases hl
      exact absurd hid (hbefore' id (by simp))
  · cases l with
    | nil => exact (List.cons.inj hl).1.symm
    | cons k l =>
      cases hl
      exact absurd hid' (hbefore id' (by simp))

end Graph

def EvalError.isDivision : EvalError → Bool
  | .divisionByZero => true
  | _ => false

def ExecError.isDivision : ExecError → Bool
  | .divisionByZero _ => true
  | _ => false

theorem remote_isDivision : ExecError.Remote EvalError.isDivision ExecError.isDivision where
  released _ := rfl
  keyMismatch _ _ := rfl
  invalid _ := rfl
  atNode e _ := by cases e <;> rfl
  configuration _ := rfl
  constantSlots _ _ := rfl
  encodeOf _ _ := rfl
  plainNegation _ := rfl
  plainRotation _ := rfl
  rawLengths _ _ _ := rfl

namespace Machine

variable {m : Machine Scheme.bitwise} {key : KeyId} {v v' : Vault} {x y : Value Scheme.bitwise}
  {a d : Meaning (BitVec b)} {op : Arithmetic} {node : NodeId}

theorem refuses_iff (hc : m.context.Gated b) (hx : Stores key v x a) (hy : Stores key v y d) :
    m.refuses op x y = true ↔ op = .div ∧
      (a.type = .raw ∧ d.type = .raw ∨ a.type = .cipher ∧ d.type = .plain) ∧ d.value = 0 := by
  cases hx with
  | raw hx =>
    cases hy with
    | @raw y s hy =>
      have hzero : (Scheme.bitwise.reduceRaw m.context [y]).any Slot.isZero = true ↔ s = 0 := by
        change ((y &&& mask m.context == 0) || false) = true ↔ s = 0
        rw [Bool.or_false, beq_iff_eq, and_mask hc, ofResidue_eq_zero hc.le, hy]
      simp [refuses, hzero]
    | plain | cipher => simp [refuses]
  | plain hp => cases hy <;> simp [refuses]
  | cipher hkey hcell hr =>
    cases hy with
    | @plain p s hp =>
      have hzero : Scheme.bitwise.hasZero p = true ↔ s = 0 := by
        change (p.value == 0) = true ↔ s = 0
        rw [beq_iff_eq, hp, ofResidue_eq_zero hc.le]
      simp [refuses, hzero]
    | raw | cipher => simp [refuses]

theorem runs_of_refuses (hx : Stores key v x a) (hy : Stores key v y d)
    (h : m.refuses op x y = true) :
    Runs (m.arithmetic node op x y) v (.error (.divisionByZero node)) v := by
  cases hx with
  | @raw x _ hx =>
    cases hy with
    | @raw y _ hy =>
      have hraw : rawArithmetic (S := Scheme.bitwise) node op
          (Scheme.bitwise.reduceRaw m.context [x]) (Scheme.bitwise.reduceRaw m.context [y]) =
            .error (.divisionByZero node) := by
        unfold rawArithmetic
        exact (if_neg (not_not.mpr rfl)).trans (if_pos h)
      exact runs_bind_error.mpr (.inl (runs_liftM.mpr ⟨hraw.symm, rfl⟩))
    | plain | cipher => cases h
  | plain hp => cases hy <;> cases h
  | cipher hkey hcell hr =>
    cases hy with
    | @plain p s hp =>
      have hzero : (op = .div && Scheme.bitwise.hasZero p) = true := h
      unfold Machine.arithmetic
      dsimp only
      rw [if_pos hzero]
      exact runs_bind_error.mpr (.inl (runs_throw.mpr ⟨rfl, rfl⟩))
    | raw | cipher => cases h

end Machine

open Machine

section Executions

variable {keys : Public .bitwise} {inputs outputs : SchemeValuation Scheme.bitwise}
  {μ : NodeId → Meaning (BitVec b)} {rank : NodeId → Nat} {m : Machine Scheme.bitwise}
  {v v' u u' : Vault} {node : NodeId} {r : Except ExecError (SchemeValuation Scheme.bitwise)}
  (hc : keys.context.Gated b) (hg : g.Wellformed) (hrank : g.Ranked rank)
  (hμ : g.Solves I scaleBits μ)

include hg hrank hμ

theorem dividesByZero_iff {lhs rhs : NodeId} (hn : ⟨node, .arithmetic .div⟩ ∈ g.nodes)
    (hoperands : g.operands node = [lhs, rhs]) : g.DividesByZero I scaleBits node ↔
      ((μ lhs).type = .raw ∧ (μ rhs).type = .raw ∨
        (μ lhs).type = .cipher ∧ (μ rhs).type = .plain) ∧ (μ rhs).value = 0 := by
  have hdenotes (o : NodeId) (ho : o ∈ g.operands node) : g.Denotes I scaleBits o (μ o) :=
    hμ.denotes hg hrank (hg.mem_ids_of_mem_operands ho)
  have hlhs := hdenotes lhs (by simp [hoperands])
  have hrhs := hdenotes rhs (by simp [hoperands])
  constructor
  · rintro ⟨-, lhs', rhs', a, d, hoperands', ha, hd, hclasses, hzero⟩
    cases hoperands.symm.trans hoperands'
    cases ha.unique hlhs
    cases hd.unique hrhs
    exact ⟨hclasses, hzero⟩
  · rintro ⟨hclasses, hzero⟩
    exact ⟨hn, lhs, rhs, μ lhs, μ rhs, hoperands, hlhs, hrhs, hclasses, hzero⟩

section Visit

variable (htracks : m.Tracks (Stores keys.keyId) μ u) (hgraph : m.graph = g)
  (hkeys : m.keys = keys) (hheld : ∀ o ∈ g.operands node, ∃ x, m.values.find? o = some x)

include hc htracks hgraph hkeys hheld

theorem visit_of_dividesByZero (hzero : g.DividesByZero I scaleBits node) :
    Runs (m.visit node) u (.error (.divisionByZero node)) u := by
  obtain ⟨hn, lhs, rhs, a, d, hoperands, -⟩ := id hzero
  obtain ⟨hclasses, hvalue⟩ := (dividesByZero_iff hg hrank hμ hn hoperands).mp hzero
  obtain ⟨x, hx⟩ := hheld lhs (by simp [hoperands])
  obtain ⟨y, hy⟩ := hheld rhs (by simp [hoperands])
  subst hgraph hkeys
  have hrefuses : m.refuses .div x y = true :=
    (refuses_iff hc (htracks lhs x hx) (htracks rhs y hy)).mpr ⟨rfl, hclasses, hvalue⟩
  rw [visit_of_not_input ((Graph.op?_eq_ok hg.ascending).mpr hn) (by simp),
    evaluate_arithmetic hoperands]
  refine runs_bind_error.mpr (.inl ?_)
  rw [runs_bind_of_ok (runs_value_ok.mpr ⟨hx, rfl⟩), runs_bind_of_ok (runs_value_ok.mpr ⟨hy, rfl⟩)]
  exact runs_of_refuses (htracks lhs x hx) (htracks rhs y hy) hrefuses

/-- A visit fails in a division by zero for no other reason, and names the node. -/
theorem dividesByZero_of_visit {e : ExecError} (h : Runs (m.visit node) u (.error e) u')
    (he : e.isDivision = true) :
    g.DividesByZero I scaleBits node ∧ e = .divisionByZero node := by
  suffices hzero : g.DividesByZero I scaleBits node by
    have hvisit := visit_of_dividesByZero hc hg hrank hμ htracks hgraph hkeys hheld hzero
    exact ⟨hzero, Except.error.inj (h.unique hvisit).1⟩
  by_contra hnone
  suffices hspared : e.isDivision = false by
    cases he.symm.trans hspared
  have hk : Spares EvalError.isDivision m.evaluator.requireKeys := Evaluator.spares_requireKeys rfl
  have hS : Scheme.bitwise.Reserves EvalError.isDivision :=
    reserves_bitwise remote_isDivision.toRemote
  rcases visit_error h with ⟨_, rfl⟩ | ⟨_, rfl⟩ | ⟨op, hop, hinput, heval⟩
  · rfl
  · rfl
  rw [hgraph] at hop
  have hn := (Graph.op?_eq_ok hg.ascending).mp hop
  subst hgraph hkeys
  rcases evaluate_cases (hg.arity _ hn) hinput hheld heval with ⟨a, rfl⟩ | ⟨c, rfl, hc'⟩ |
    ⟨a, lhs, rhs, y, z, rfl, hoperands, hy, hz, ha⟩ | ⟨operand, y, harity, haggregate, -, -, hu⟩
  · rw [evaluate] at heval
    cases (runs_throw.mp heval).1
    rfl
  · exact avoids_constant remote_isDivision m c u e u' hc'
  · refine avoids_arithmetic remote_isDivision hS hk
      (fun _ _ _ _ _ => Evaluator.spares_requireRelin hk rfl) (fun _ _ => rfl) rfl (fun _ => rfl)
      (fun hrefuses => ?_) u e u' ha
    obtain ⟨rfl, hclasses, hvalue⟩ :=
      (refuses_iff hc (htracks lhs y hy) (htracks rhs z hz)).mp hrefuses
    exact absurd ((dividesByZero_iff hg hrank hμ hn hoperands).mpr ⟨hclasses, hvalue⟩) hnone
  · exact avoids_unary remote_isDivision hS hk y (fun _ => rfl) (.inl ⟨harity, haggregate⟩) u e
      u' hu

end Visit

variable (hreached : ∀ node m u, Reaches keys g inputs v node m u →
  m.Tracks (Stores keys.keyId) μ u)

include hc hreached

theorem Reaches.stops (h : Reaches keys g inputs v node m u)
    (hzero : g.DividesByZero I scaleBits node) :
    Runs (m.visit node) u (.error (.divisionByZero node)) u :=
  visit_of_dividesByZero hc hg hrank hμ (hreached node m u h) h.frame.1 h.frame.2
    (h.operands_held hg.toSound hg.visible) hzero

/-- An execution that comes to a division by zero has not passed another. -/
theorem Reaches.first (h : Reaches keys g inputs v node m u)
    (hzero : g.DividesByZero I scaleBits node) : g.FirstDividesByZero I scaleBits node := by
  obtain ⟨start, before, after, left, hstart, ho, hpass⟩ := h
  refine ⟨hzero, before, after, ho, fun k hk hkzero => ?_⟩
  obtain ⟨m₁, v₁, m₂, v₂, hreach, hvisit⟩ := hstart.reaches ho hpass hk
  cases (hvisit.unique (hreach.stops hc hg hrank hμ hreached hkzero)).1

/-- What an execution of gates reports about divisions by zero: the first one, if it comes to it,
and nothing else. It comes to it unless it fails in another way before. -/
theorem execute_divisionByZero (h : Runs (execute Scheme.bitwise keys g inputs) v r v') :
    (∀ n, r = .error (.divisionByZero n) ↔
      g.FirstDividesByZero I scaleBits n ∧ ∃ m u, Reaches keys g inputs v n m u) ∧
    ∀ n, g.FirstDividesByZero I scaleBits n →
      (∃ m u, Reaches keys g inputs v n m u) ∨ ∃ e, r = .error e ∧ e.isDivision = false := by
  have hreports {e : ExecError} (hr : r = .error e) (he : e.isDivision = true) :
      ∃ n, e = .divisionByZero n ∧ g.FirstDividesByZero I scaleBits n ∧
        ∃ m u, Reaches keys g inputs v n m u := by
    subst hr
    rcases execute_error h with ⟨_, rfl⟩ | ⟨_, rfl⟩ | ⟨_, rfl | rfl⟩ | ⟨n, m, u, hreach, hvisit⟩
    any_goals cases he
    obtain ⟨hzero, heq⟩ := dividesByZero_of_visit hc hg hrank hμ (hreached n m u hreach)
      hreach.frame.1 hreach.frame.2 (hreach.operands_held hg.toSound hg.visible) hvisit he
    exact ⟨n, heq, hreach.first hc hg hrank hμ hreached hzero, m, u, hreach⟩
  refine ⟨fun n => ⟨fun hr => ?_, ?_⟩, fun n hfirst => ?_⟩
  · obtain ⟨k, heq, hfirst⟩ := hreports hr rfl
    cases heq
    exact hfirst
  · rintro ⟨hfirst, m, u, hreach⟩
    have hstops := hreach.stops hc hg hrank hμ hreached hfirst.1
    exact (h.unique (hreach.execute_error hstops)).1
  · cases r with
    | ok outputs =>
      obtain ⟨start, order, left, m, hstart, ho, hpass, -⟩ := execute_ok h
      obtain ⟨-, before, after, ho', -⟩ := hfirst
      obtain rfl := Except.ok.inj (ho.symm.trans ho')
      rw [← List.append_nil (before ++ n :: after)] at ho
      have hmem : n ∈ before ++ n :: after := List.mem_append_right before List.mem_cons_self
      obtain ⟨m₁, v₁, -, -, hreach, -⟩ := hstart.reaches ho hpass hmem
      exact .inl ⟨m₁, v₁, hreach⟩
    | error e =>
      cases he : e.isDivision with
      | false => exact .inr ⟨e, rfl, he⟩
      | true =>
        obtain ⟨k, -, hk, hreach⟩ := hreports rfl he
        cases hfirst.unique hk
        exact .inl hreach

end Executions

end CipherGraph

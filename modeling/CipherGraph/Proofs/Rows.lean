import CipherGraph.Proofs.Primitives

/-! # Rows

Slots turn in rows, and a vector that spans several of them cannot be turned. Only the rotation of a
ciphertext is refused for that; whatever else may go wrong in an execution is another failure.
-/

namespace CipherGraph

/-- The refusal of a rotation across rows. -/
def ExecError.isRow : ExecError → Bool
  | .configuration (.rotationRow ..) => true
  | _ => false

variable {S : Scheme} {α : Type} {node : NodeId} {m : Machine S} {v v' : Vault}

/-- Rotations need keys, and the rows are too short for the vectors of a graph. -/
def SpansRows (keys : Public S.kind) (g : Graph) : Prop :=
  S.kind.capabilities.rotationKeys = true ∧ keys.context.rowSize < g.width

/-- A node that turns a ciphertext, as the machine holds its operand. -/
def Machine.TurnsCipher (m : Machine S) (node : NodeId) : Prop :=
  ∃ op steps left operand rest c, m.graph.op? node = .ok op ∧ op.turn? = some (steps, left) ∧
    m.graph.operands node = operand :: rest ∧ m.values.find? operand = some (.cipher c)

theorem EvalError.isRow_atNode (e : EvalError) : (e.atNode node).isRow = false := by
  cases e <;> rfl

theorem avoids_atNode_row (n : Native α) : Avoids ExecError.isRow (n.atNode node) := by
  intro v e v' h
  obtain ⟨x, -, he⟩ := runs_atNode.mp h
  cases x with
  | ok a => cases he
  | error e' =>
    cases he
    exact e'.isRow_atNode

theorem avoids_ofEval_row (x : Except EvalError α) :
    Avoids ExecError.isRow (Exec.ofEval node x) := by
  cases x with
  | ok a => exact avoids_pure a
  | error e => exact avoids_throw e.isRow_atNode

theorem spares_fill_row (slots : List α) (count : Nat) :
    Spares ExecError.isRow (fill slots count) := by
  unfold fill
  split
  · exact spares_error rfl
  · exact spares_ok _

namespace Machine

theorem avoids_constant_row (c : Constant) : Avoids ExecError.isRow (m.constant node c) := by
  unfold Machine.constant
  split
  · exact avoids_throw rfl
  · exact (spares_fill_row _ _).liftM.bind fun _ => avoids_pure _

theorem avoids_encode_row (x : Value S) (scaleBits level : Nat) :
    Avoids ExecError.isRow (m.encode node x scaleBits level) := by
  unfold Machine.encode
  split
  · exact (spares_fill_row _ _).liftM.bind fun _ => (avoids_ofEval_row _).bind fun _ =>
      avoids_pure _
  · exact avoids_throw rfl

theorem avoids_negate_row (x : Value S) : Avoids ExecError.isRow (m.negate node x) := by
  unfold Machine.negate
  split
  · exact (avoids_atNode_row _).bind fun _ => avoids_pure _
  · exact avoids_throw rfl
  · exact avoids_pure _

theorem spares_rawArithmetic_row (op : Arithmetic) (a b : List S.Slot) :
    Spares ExecError.isRow (rawArithmetic (S := S) node op a b) := by
  unfold rawArithmetic
  split
  · exact spares_error rfl
  · split
    · exact spares_error rfl
    · exact spares_ok _

theorem avoids_requireKeys_row (op : Arithmetic) :
    Avoids ExecError.isRow (m.requireKeys node op) := by
  unfold requireKeys
  split
  · exact (avoids_ofEval_row _).bind fun _ => avoids_pure _
  · exact avoids_pure _

theorem avoids_arithmetic_row (op : Arithmetic) (x y : Value S) :
    Avoids ExecError.isRow (m.arithmetic node op x y) := by
  have hgate (n : Native S.Ciphertext) : Avoids ExecError.isRow (do
      m.requireKeys node op
      return Value.cipher (S := S) (← n.atNode node)) :=
    (avoids_requireKeys_row op).bind fun _ => (avoids_atNode_row n).bind fun _ => avoids_pure _
  unfold Machine.arithmetic
  split
  · exact (spares_rawArithmetic_row op _ _).liftM.bind fun _ => avoids_pure _
  · exact hgate _
  · split
    · exact (avoids_throw rfl).bind fun _ => hgate _
    · exact hgate _
  · exact hgate _
  · exact avoids_throw rfl
  · exact avoids_throw rfl

theorem spansRows_iff : (S.kind.capabilities.rotationKeys &&
    decide (m.context.rowSize < m.graph.width)) = true ↔ SpansRows m.keys m.graph := by
  rw [Bool.and_eq_true, decide_eq_true_iff]
  rfl

theorem avoids_rotate_row {x : Value S} (steps : Nat) (left : Bool)
    (h : SpansRows m.keys m.graph → ∀ c, x ≠ .cipher c) :
    Avoids ExecError.isRow (m.rotate node x steps left) := by
  unfold Machine.rotate
  cases x with
  | cipher c =>
    dsimp only
    split
    · next hspans => exact absurd rfl (h (spansRows_iff.mp hspans) c)
    · exact (avoids_atNode_row _).bind fun _ => avoids_pure _
  | plain p => exact avoids_throw rfl
  | raw slots => exact avoids_pure _

theorem runs_rotate_row (h : SpansRows m.keys m.graph) (c : S.Ciphertext) (steps : Nat)
    (left : Bool) (v : Vault) :
    Runs (m.rotate node (.cipher c) steps left) v
      (.error (.configuration (.rotationRow node m.context.rowSize))) v := by
  unfold Machine.rotate
  dsimp only
  rw [if_pos (spansRows_iff.mpr h)]
  exact runs_bind_error.mpr (.inl (runs_throw.mpr ⟨rfl, rfl⟩))

theorem avoids_unary_row {op : Operation} {x : Value S}
    (h : SpansRows m.keys m.graph → ∀ turn, op.turn? = some turn → ∀ c, x ≠ .cipher c) :
    Avoids ExecError.isRow (m.unary node op x) := by
  cases op with
  | output name => exact avoids_pure x
  | encode scaleBits level => exact avoids_encode_row x scaleBits level
  | negate => exact avoids_negate_row x
  | rotateLeft steps => exact avoids_rotate_row steps true fun hs => h hs _ rfl
  | rotateRight steps => exact avoids_rotate_row steps false fun hs => h hs _ rfl
  | aggregate | input | constant | arithmetic => exact avoids_throw rfl

/-- A visit is refused for its rows only where it turns a ciphertext. -/
theorem avoids_visit_row (h : SpansRows m.keys m.graph → ¬ m.TurnsCipher node) :
    Avoids ExecError.isRow (m.visit node) := by
  have hread (id : NodeId) : Avoids ExecError.isRow (m.value id) := by
    unfold Machine.value
    split
    · exact avoids_pure _
    · exact avoids_throw rfl
  intro v e v' hvisit
  rcases visit_error hvisit with ⟨fault, rfl⟩ | ⟨name, rfl⟩ | ⟨op, hnode, -, heval⟩
  · rfl
  · rfl
  revert heval
  suffices Avoids ExecError.isRow (m.evaluate node op) from this v e v'
  have hother (operand : NodeId) (rest : List NodeId)
      (ho : m.graph.operands node = operand :: rest) :
      Avoids ExecError.isRow (do m.unary node op (← m.value operand)) := by
    refine (hread operand).bind_of_runs fun x _ _ hx => avoids_unary_row ?_
    rintro hs ⟨steps, left⟩ hturn c rfl
    exact h hs ⟨op, steps, left, operand, rest, c, hnode, hturn, ho, (runs_value_ok.mp hx).1⟩
  unfold evaluate
  split
  · exact avoids_throw rfl
  · exact avoids_constant_row _
  · exact (hread _).bind fun x => (hread _).bind fun y => avoids_arithmetic_row _ x y
  · next operand rest _ _ _ ho => exact hother operand rest ho
  · exact avoids_throw rfl

theorem TurnsCipher.runs_visit (h : m.TurnsCipher node) (hs : SpansRows m.keys m.graph)
    (v : Vault) :
    Runs (m.visit node) v (.error (.configuration (.rotationRow node m.context.rowSize))) v := by
  obtain ⟨op, steps, left, operand, rest, c, hop, hturn, hoperands, hheld⟩ := h
  have heval : m.evaluate node op = (do m.rotate node (← m.value operand) steps left) := by
    unfold Operation.turn? at hturn
    split at hturn <;> cases hturn <;> (unfold evaluate; rw [hoperands]; rfl)
  have hinput : ∀ name type, op ≠ .input name type := by
    rintro name type rfl
    cases hturn
  rw [visit_of_not_input hop hinput, heval]
  refine runs_bind_error.mpr (.inl ?_)
  rw [runs_bind_of_ok (runs_value_ok.mpr ⟨hheld, rfl⟩)]
  exact runs_rotate_row hs c steps left v

end Machine

open Machine

variable {keys : Public S.kind} {g : Graph} {inputs : SchemeValuation S}

theorem spares_create_row : Spares ExecError.isRow (Machine.create g keys) := by
  unfold Machine.create
  dsimp only
  split
  · exact spares_error rfl
  · exact spares_ok _

theorem spares_bindAll_row (l : List (String × Value S)) :
    Spares ExecError.isRow (m.bindAll l).2 := by
  induction l generalizing m with
  | nil => exact spares_ok ()
  | cons x l ih =>
    obtain ⟨name, x⟩ := x
    unfold bindAll
    split
    · exact ih
    · next he =>
      unfold Machine.bind at he
      split at he
      · cases he
        exact spares_error rfl
      · split at he
        · split at he <;> cases he
          exact spares_error rfl
        · cases he

theorem starts_of_row {e : ExecError} (h : Runs (execute S keys g inputs) v (.error e) v')
    (he : e.isRow = true) : ∃ start, Starts keys g inputs start := by
  unfold execute at h
  rcases runs_bind h with ⟨_, hcreate, ⟨⟩⟩ | ⟨m, _, hcreate, hrest⟩
  · cases he.symm.trans (spares_create_row e (runs_liftM.mp hcreate).1.symm)
  · obtain ⟨hfits, rfl⟩ := create_ok.mp (runs_liftM.mp hcreate).1.symm
    split at hrest
    · next hbound =>
      cases (runs_throw.mp hrest).1
      cases he.symm.trans (spares_bindAll_row inputs.entries e (by rw [hbound]))
    · next start hbound => exact ⟨start, hfits, hbound⟩

/-- An execution is refused for its rows exactly if it comes to a node that turns a ciphertext and
the rows are too short. -/
theorem execute_row_iff {row : Nat} :
    (∃ v', Runs (execute S keys g inputs) v
        (.error (.configuration (.rotationRow node row))) v') ↔
      SpansRows keys g ∧ row = keys.context.rowSize ∧
        ∃ m v₁, Reaches keys g inputs v node m v₁ ∧ m.TurnsCipher node := by
  constructor
  · rintro ⟨v', h⟩
    obtain ⟨start, hstart⟩ := starts_of_row h rfl
    rcases hstart.failure h with ⟨_, ⟨⟩⟩ | ⟨_, _, _, _, -, -, hout⟩ | ⟨id, m, v₁, hreach, hvisit⟩
    · rcases collect_error hout with ⟨_, h | h⟩ <;> cases h
    · obtain ⟨hgraph, hkeys⟩ := hreach.frame
      have hturns : SpansRows m.keys m.graph ∧ m.TurnsCipher id := by
        by_contra hnot
        cases avoids_visit_row (fun hs hturn => hnot ⟨hs, hturn⟩) _ _ _ hvisit
      have hrefused := hturns.2.runs_visit hturns.1 v₁
      cases (Prod.mk.inj (hvisit.symm.trans hrefused)).1
      rw [hgraph, hkeys] at hturns
      exact ⟨hturns.1, by rw [context, hkeys], m, v₁, hreach, hturns.2⟩
  · rintro ⟨hs, rfl, m, v₁, hreach, hturns⟩
    obtain ⟨hgraph, hkeys⟩ := hreach.frame
    have hvisit := hturns.runs_visit (by rwa [hgraph, hkeys]) v₁
    rw [context, hkeys] at hvisit
    exact ⟨v₁, hreach.execute_error hvisit⟩

end CipherGraph

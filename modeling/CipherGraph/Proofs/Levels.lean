import CipherGraph.Proofs.Depths
import CipherGraph.Proofs.Exactness
import CipherGraph.Proofs.KeyDemand

/-! # Levels of the approximate family

In an execution of a compiled graph, a ciphertext has as many levels left as its node is less deep
than the deepest one that the parameters were selected for. Levels are therefore never exhausted.
-/

namespace CipherGraph

/-- The level of a value; slots in the clear count as fresh. -/
def Value.level (top : Nat) : Value .ckks → Nat
  | .raw _ => top
  | .plain p => PackedPlaintext.level p
  | .cipher c => PackedCiphertext.level c

namespace Approximate

variable {context : Context} {ev : Evaluator} {a b c : Ciphertext} {p : Plaintext} {op : Arithmetic}

theorem rescale_ok {n k : Nat} (h : rescale n = .ok k) : k + 1 = n := by
  cases n with
  | zero => cases h
  | succ n =>
    cases h
    rfl

theorem level_of_encode {slots : List Float} {scaleBits level : Nat}
    (h : encode context slots scaleBits level = .ok p) : p.level = context.maxLevel - level := by
  obtain ⟨_, -, h⟩ := Except.bind_eq_ok.mp h
  dsimp only at h
  split at h
  · cases h
  · split at h <;> cases h
    rfl

theorem level_of_encrypt {keyId : KeyId} {noise : Noise}
    (h : encrypt context keyId p noise = .ok c) :
    c.level = p.level := by
  unfold encrypt at h
  split at h
  · split at h <;> cases h
    rfl
  · cases h
    rfl

def spent (op : Arithmetic) : Nat := if Graph.isProduct (.arithmetic op) then 1 else 0

theorem level_of_combine (h : combine op ev a b = .ok c) :
    c.level + spent op = min a.level b.level := by
  unfold combine at h
  cases op with
  | add | sub =>
    rw [Packed.zip_ok h]
    rfl
  | mul | div =>
    obtain ⟨_, -, h⟩ := Except.bind_eq_ok.mp h
    obtain ⟨k, hk, h⟩ := Except.bind_eq_ok.mp h
    rw [Packed.zip_ok h]
    exact rescale_ok hk

theorem level_of_combinePlain (h : combinePlain op a p = .ok c) :
    c.level + spent op = min a.level p.level := by
  unfold combinePlain at h
  cases op with
  | add | sub =>
    rw [Packed.zipPlain_ok h]
    rfl
  | mul =>
    obtain ⟨k, hk, h⟩ := Except.bind_eq_ok.mp h
    rw [Packed.zipPlain_ok h]
    exact rescale_ok hk
  | div =>
    dsimp only at h
    split at h
    · cases h
    · obtain ⟨k, hk, h⟩ := Except.bind_eq_ok.mp h
      rw [Packed.zipPlain_ok h]
      exact rescale_ok hk

theorem level_of_combineLeft (h : combineLeft op p b = .ok c) :
    c.level + spent op = min p.level b.level := by
  cases op with
  | add | mul =>
    rw [min_comm]
    exact level_of_combinePlain h
  | sub => cases h
  | div =>
    obtain ⟨k, hk, h⟩ := Except.bind_eq_ok.mp h
    rw [Packed.zipPlain_ok h]
    exact rescale_ok hk

end Approximate

def EvalError.isExhausted : EvalError → Bool
  | .levelExhausted => true
  | _ => false

def ExecError.isExhausted : ExecError → Bool
  | .arithmetic _ (.primitive .levelExhausted) => true
  | _ => false

theorem remote_isExhausted : ExecError.Remote EvalError.isExhausted ExecError.isExhausted where
  released _ := rfl
  keyMismatch _ _ := rfl
  invalid _ := rfl
  atNode e _ := by cases e <;> rfl
  configuration _ := rfl
  constantSlots _ _ := rfl
  encodeOf _ _ := rfl
  plainNegation _ := rfl
  plainRotation _ := rfl
  rawLengths _ _ _ := rfl

namespace Graph

/-- What the graph encodes has all levels. -/
def EncodesFresh (g : Graph) : Prop :=
  ∀ id scaleBits level, ⟨id, .encode scaleBits level⟩ ∈ g.nodes → level = 0

theorem Stages.encodesFresh {g : Graph} {o : CompileOptions} {c : IdCounters} {first : Typing}
    {cg : CompiledGraph} (h : g.Stages o c first cg) (hg : g.Reachable) (hfresh : g.EncodesFresh) :
    cg.graph.EncodesFresh := by
  intro id scaleBits level hn
  cases level with
  | zero => rfl
  | succ level => exact hfresh id scaleBits (level + 1) (h.original hg rfl hn)

end Graph

namespace Machine

variable {m m' : Machine .ckks} {node : NodeId} {v v' : Vault} {x y z : Value .ckks}
  {op : Arithmetic}

theorem level_of_arithmetic (top : Nat) (h : Runs (m.arithmetic node op y z) v (.ok x) v') :
    x.level top + (if x.type = .cipher then Approximate.spent op else 0) =
      min (y.level top) (z.level top) := by
  unfold Machine.arithmetic at h
  split at h
  · obtain ⟨_, _, -, h⟩ := runs_bind_ok.mp h
    cases (runs_pure.mp h).1
    simp [Value.level, Value.type]
  · obtain ⟨_, _, -, h⟩ := runs_bind_ok.mp h
    obtain ⟨c, _, hc, h⟩ := runs_bind_ok.mp h
    cases (runs_pure.mp h).1
    exact Approximate.level_of_combine (ok_of_atNode hc)
  · split at h
    · obtain ⟨_, _, h, -⟩ := runs_bind_ok.mp h
      cases (runs_throw.mp h).1
    · obtain ⟨_, _, -, h⟩ := runs_bind_ok.mp h
      obtain ⟨c, _, hc, h⟩ := runs_bind_ok.mp h
      cases (runs_pure.mp h).1
      exact Approximate.level_of_combinePlain (ok_of_atNode hc)
  · obtain ⟨_, _, -, h⟩ := runs_bind_ok.mp h
    obtain ⟨c, _, hc, h⟩ := runs_bind_ok.mp h
    cases (runs_pure.mp h).1
    exact Approximate.level_of_combineLeft (ok_of_atNode hc)
  · cases (runs_throw.mp h).1
  · cases (runs_throw.mp h).1

theorem level_of_unary {op : Operation} (hfresh : ∀ scaleBits level, op = .encode scaleBits level →
      level = 0) (h : Runs (m.unary node op y) v (.ok x) v') :
    x.level m.context.maxLevel = y.level m.context.maxLevel := by
  have hrotate {steps : Nat} {left : Bool} (h : Runs (m.rotate node y steps left) v (.ok x) v') :
      x.level m.context.maxLevel = y.level m.context.maxLevel := by
    unfold Machine.rotate at h
    split at h
    · split at h
      · obtain ⟨_, _, h, -⟩ := runs_bind_ok.mp h
        cases (runs_throw.mp h).1
      · obtain ⟨c, _, hc, h⟩ := runs_bind_ok.mp h
        cases (runs_pure.mp h).1
        obtain ⟨_, -, hc⟩ := Except.bind_eq_ok.mp (ok_of_atNode hc)
        cases hc
        rfl
    · cases (runs_throw.mp h).1
    · cases (runs_pure.mp h).1
      rfl
  cases op with
  | output name =>
    cases (runs_pure.mp h).1
    rfl
  | encode scaleBits level =>
    cases hfresh scaleBits level rfl
    change Runs (m.encode node y scaleBits 0) v (.ok x) v' at h
    unfold Machine.encode at h
    split at h
    · obtain ⟨full, _, -, h⟩ := runs_bind_ok.mp h
      obtain ⟨p, _, hp, h⟩ := runs_bind_ok.mp h
      cases (runs_pure.mp h).1
      exact Approximate.level_of_encode (runs_ofEval_ok.mp hp).1
    · cases (runs_throw.mp h).1
  | negate =>
    change Runs (m.negate node y) v (.ok x) v' at h
    unfold Machine.negate at h
    split at h
    · obtain ⟨c, _, hc, h⟩ := runs_bind_ok.mp h
      cases (runs_pure.mp h).1
      cases (runs_pure.mp (runs_atNode_ok.mp hc)).1
      rfl
    · cases (runs_throw.mp h).1
    · cases (runs_pure.mp h).1
      rfl
  | rotateLeft steps => exact hrotate h
  | rotateRight steps => exact hrotate h
  | _ => cases (runs_throw.mp h).1

theorem type_of_encoded {scaleBits level : Nat}
    (h : Runs (m.encode node y scaleBits level) v (.ok x) v') : y.type = .raw := by
  unfold Machine.encode at h
  split at h
  · rfl
  · cases (runs_throw.mp h).1

/-- A machine that has visited some nodes: each is as deep as reckoned, and what it holds lacks as
many levels. -/
structure Levelled (g : Graph) (keys : Public .ckks) (t : Typing) (D : NodeId → Nat)
    (visited : List NodeId) (m : Machine .ckks) : Prop where
  frame : m.graph = g ∧ m.keys = keys
  typed : m.WellTyped t
  depth : ∀ id ∈ visited, g.IsDepth t id (D id)
  level : ∀ id x, m.values.find? id = some x →
    x.level keys.context.maxLevel + Graph.reckoned D visited id = keys.context.maxLevel

variable {g : Graph} {keys : Public .ckks} {t : Typing} {D : NodeId → Nat} {limit : Nat}
  {before after : List NodeId}

theorem Levelled.trims (h : m.Levelled g keys t D before) (ht : Trims m m') :
    m'.Levelled g keys t D before where
  frame := ⟨ht.graph.trans h.frame.1, ht.keys.trans h.frame.2⟩
  typed := h.typed.trims ht
  depth := h.depth
  level id x hx := h.level id x (ht.values id x hx)

/-- A machine has visited one node more if the value of that node lacks the levels it should. -/
theorem Levelled.extend (h : m.Levelled g keys t D before)
    (hframe : m'.graph = m.graph ∧ m'.keys = m.keys) (hwell : m'.WellTyped t)
    (hdepth : g.IsDepth t node (D node))
    (hold : ∀ id x, id ≠ node → m'.values.find? id = some x → m.values.find? id = some x)
    (hnew : ∀ x, m'.values.find? node = some x →
      x.level keys.context.maxLevel + D node = keys.context.maxLevel) :
    m'.Levelled g keys t D (before ++ [node]) where
  frame := ⟨hframe.1.trans h.frame.1, hframe.2.trans h.frame.2⟩
  typed := hwell
  depth id hid := by
    rcases List.mem_append.mp hid with hid | hid
    · exact h.depth id hid
    · cases List.mem_singleton.mp hid
      exact hdepth
  level id x hx := by
    by_cases hid : id = node
    · subst hid
      rw [Graph.reckoned_of_mem (by simp), hnew x hx]
    · have hreckoned : Graph.reckoned D (before ++ [node]) id = Graph.reckoned D before id := by
        simp [Graph.reckoned, hid]
      rw [hreckoned, h.level id x (hold id x hid hx)]

variable (hg : g.Sound) (ht : g.inferTypes = .ok t) (hD : g.Reckons t limit D)

section Visit

variable (ho : g.forwardOrder = .ok (before ++ node :: after)) {op : Operation}
  (hop : g.op? node = .ok op)

include hg ht hD ho hop

theorem Levelled.isDepth (h : m.Levelled g keys t D before)
    (hencode : ∀ scaleBits level, op = .encode scaleBits level →
      ∀ o ∈ g.operands node, t.find? o = some .raw) : g.IsDepth t node (D node) := by
  rw [(hD before node after ho).2]
  refine Graph.isDepth_of_operands fun o hmem => ?_
  by_cases hbefore : o ∈ before
  · rw [Graph.reckoned_of_mem hbefore]
    exact h.depth o hbefore
  · rw [Graph.reckoned_of_not_mem hbefore]
    have hraw : t.find? o = some .raw := by
      by_contra hcoded
      refine hbefore (Graph.operands_precede hg ht ho hop (fun scaleBits level heq => ?_) o hmem)
      exact hcoded (hencode scaleBits level heq o hmem)
    exact (Graph.typed_of_inferTypes hg ht).isDepth_raw hg
      (fun _ _ => Graph.mem_ids_of_inferTypes hg ht) hraw

omit ht in
theorem Levelled.level_of_evaluate (h : m.Levelled g keys t D before)
    (hfresh : ∀ scaleBits level, op = .encode scaleBits level → level = 0)
    (hinput : ∀ name type, op ≠ .input name type) (htype : t.find? node = some x.type)
    (heval : Runs (m.evaluate node op) v (.ok x) v') :
    x.level keys.context.maxLevel + D node = keys.context.maxLevel := by
  obtain ⟨rfl, rfl⟩ := h.frame
  have harity := hg.arity _ ((Graph.op?_eq_ok hg.ascending).mp hop)
  dsimp only at harity
  rw [(hD before node after ho).2, Graph.spends_eq hop, htype]
  obtain ⟨c, rfl, hc⟩ | ⟨a, lhs, rhs, y, z, rfl, hoperands, hy, hz, ha⟩ |
    ⟨operand, y, hoperands, hy, hu⟩ := evaluate_ok harity hinput heval
  · rw [List.length_eq_zero_iff.mp harity]
    have hraw := type_of_constant hc
    cases x with
    | raw slots => rfl
    | plain | cipher => cases hraw
  · have hlhs := h.level lhs y hy
    have hrhs := h.level rhs z hz
    have hx := level_of_arithmetic m.keys.context.maxLevel ha
    have hspent : (if (decide (some x.type = some ValueClass.cipher) &&
        Graph.isProduct (.arithmetic a)) = true then 1 else 0) =
          if x.type = .cipher then Approximate.spent a else 0 := by
      by_cases hcipher : x.type = .cipher <;> simp [hcipher, Approximate.spent]
    rw [hspent, hoperands, Graph.deepestOf]
    simp only [List.foldl_cons, List.foldl_nil]
    omega
  · have hoperand := h.level operand y hy
    have hx : x.level m.keys.context.maxLevel = y.level m.keys.context.maxLevel :=
      level_of_unary hfresh hu
    have hproduct : Graph.isProduct op = false := by
      rw [hoperands] at harity
      cases op <;> first | rfl | cases harity
    rw [hproduct, Bool.and_false, hoperands, Graph.deepestOf]
    simp only [List.foldl_cons, List.foldl_nil, Bool.false_eq_true, if_false]
    omega

omit hop in
theorem Levelled.visit (hfresh : g.EncodesFresh) (h : m.Levelled g keys t D before)
    (hvisit : Runs (m.visit node) v (.ok m') v') : m'.Levelled g keys t D (before ++ [node]) := by
  obtain ⟨rfl, rfl⟩ := h.frame
  have hnew : node ∉ before := fun hmem => by
    have hnodup : (before ++ node :: after).Nodup :=
      (Graph.forwardOrder_perm ho).nodup_iff.mpr hg.nodup
    exact (List.nodup_append.mp hnodup).2.2 node hmem node List.mem_cons_self rfl
  have hwell := h.typed.visit hg (Graph.typed_of_inferTypes hg ht) hvisit
  have hframe := visit_frame hvisit
  obtain ⟨rfl, -, -, name, type, hop⟩ | ⟨op, x, hop, hinput, heval, rfl⟩ := visit_ok hvisit
  · -- An input is bound, with all levels.
    refine h.extend hframe hwell (h.isDepth hg ht hD ho hop nofun) (fun _ _ _ hx => hx) ?_
    intro x hx
    have hzero : D node = 0 := by
      have harity := hg.arity _ ((Graph.op?_eq_ok hg.ascending).mp hop)
      rw [(hD before node after ho).2, Graph.spends_eq hop, List.length_eq_zero_iff.mp harity]
      simp [Graph.deepestOf, Graph.isProduct]
    have hlevel := h.level node x hx
    rwa [Graph.reckoned_of_not_mem hnew, ← hzero] at hlevel
  · have hn := (Graph.op?_eq_ok hg.ascending).mp hop
    have htype : t.find? node = some x.type := hwell node x OrderedMap.find?_insert_self
    have hencoded : ∀ scaleBits level, op = .encode scaleBits level →
        ∀ o ∈ m.graph.operands node, t.find? o = some .raw := by
      rintro scaleBits level rfl o hmem
      obtain ⟨_, ⟨⟩, -⟩ | ⟨_, _, _, _, _, ⟨⟩, -⟩ | ⟨operand, y, hoperands, hy, hu⟩ :=
        evaluate_ok (hg.arity _ hn) hinput heval
      dsimp only at hoperands
      rw [hoperands] at hmem
      cases List.mem_singleton.mp hmem
      rw [h.typed o y hy, type_of_encoded hu]
    refine h.extend hframe hwell (h.isDepth hg ht hD ho hop hencoded) ?_ ?_
    · intro id y hid hy
      rwa [Machine.put, OrderedMap.find?_insert_of_ne (Ne.symm hid)] at hy
    · intro y hy
      cases OrderedMap.find?_insert_self.symm.trans hy
      refine h.level_of_evaluate hg hD ho hop ?_ hinput htype heval
      rintro scaleBits level rfl
      exact hfresh node scaleBits level hn

end Visit

include hg ht hD

theorem Levelled.passes {order : List NodeId} {left left' : Remaining} (hfresh : g.EncodesFresh)
    (ho : g.forwardOrder = .ok (before ++ order ++ after)) (h : m.Levelled g keys t D before)
    (hpass : Passes m left v order m' left' v') : m'.Levelled g keys t D (before ++ order) := by
  induction hpass generalizing before with
  | nil => rwa [List.append_nil]
  | @cons m m₁ m' left left' v v₁ v' node rest hvisit _ ih =>
    have hrest : g.forwardOrder = .ok (before ++ [node] ++ rest ++ after) := by
      rw [ho]
      simp
    rw [List.append_assoc, List.cons_append] at ho
    rw [List.append_cons]
    exact ih hrest ((h.visit hg ht hD ho hfresh hvisit).trims (trims_freeOperands ..))

/-- A product whose operands are not both in the clear has a level to spend. -/
theorem Levelled.level_pos (h : m.Levelled g keys t D before)
    (ho : g.forwardOrder = .ok (before ++ node :: after)) (hlimit : limit ≤ keys.context.maxLevel)
    (hop : g.op? node = .ok (.arithmetic op)) {lhs rhs : NodeId} {rest : List NodeId}
    (hoperands : g.operands node = lhs :: rhs :: rest) (hy : m.values.find? lhs = some y)
    (hz : m.values.find? rhs = some z) (hcipher : y.type.join z.type = .cipher)
    (hproduct : op = .mul ∨ op = .div) :
    min (y.level keys.context.maxLevel) (z.level keys.context.maxLevel) ≠ 0 := by
  have hn := (Graph.op?_eq_ok hg.ascending).mp hop
  have harity := hg.arity _ hn
  dsimp only at harity
  rw [hoperands] at harity
  cases List.length_eq_zero_iff.mp (Nat.succ.inj (Nat.succ.inj harity))
  have htype : t.find? node = some .cipher := by
    have hclasses : (g.operands node).map t.find? = [y.type, z.type].map some := by
      simp [hoperands, h.typed lhs y hy, h.typed rhs z hz]
    rw [(Graph.typed_of_inferTypes hg ht).find?_eq hg hn hclasses]
    simp [Operation.result, hcipher]
  obtain ⟨hle, heq⟩ := hD before node after ho
  have hspends : g.spends t node = true := by
    rw [Graph.spends_eq hop, htype]
    rcases hproduct with rfl | rfl <;> rfl
  rw [hspends, hoperands, Graph.deepestOf] at heq
  simp only [List.foldl_cons, List.foldl_nil, if_true] at heq
  have hlhs := h.level lhs y hy
  have hrhs := h.level rhs z hz
  omega

theorem Levelled.avoids_visit (h : m.Levelled g keys t D before)
    (ho : g.forwardOrder = .ok (before ++ node :: after)) (hlimit : limit ≤ keys.context.maxLevel)
    (hfresh : g.EncodesFresh) : Avoids ExecError.isExhausted (m.visit node) := by
  have hb := remote_isExhausted
  have hk : Spares EvalError.isExhausted m.evaluator.requireKeys := Evaluator.spares_requireKeys rfl
  have hr : Spares EvalError.isExhausted m.evaluator.requireRelin :=
    Evaluator.spares_requireRelin hk rfl
  obtain ⟨rfl, rfl⟩ := h.frame
  refine avoids_visit_of hb (fun _ => rfl) (fun _ => rfl) (fun _ => rfl) ?_ ?_
  · intro op lhs rhs rest y z hop hoperands hy hz
    have hlevel (hproduct : op = .mul ∨ op = .div) (hcipher : y.type.join z.type = .cipher) :=
      h.level_pos hg ht hD ho hlimit hop hoperands hy hz hcipher hproduct
    refine avoids_arithmetic_of hb hk ?_ ?_ ?_ rfl (fun _ => rfl) fun _ => rfl
    · rintro a b rfl rfl
      exact (Approximate.spares_combine hb.toRemote (fun _ => hr)
        fun hproduct hzero => absurd hzero (hlevel hproduct rfl)).liftM
    · rintro a b rfl rfl
      exact (Approximate.spares_combinePlain hb.toRemote (fun _ _ => rfl)
        fun hproduct hzero => absurd hzero (hlevel hproduct rfl)).liftM
    · rintro a b rfl rfl
      exact (Approximate.spares_combineLeft hb.toRemote (fun _ => rfl)
        fun hproduct hzero => absurd hzero (hlevel hproduct rfl)).liftM
  · intro op operand rest y hop _ _
    refine avoids_unary_of hb ?_ (fun _ => avoids_pure _) ?_ (.inr rfl)
    · rintro scaleBits level slots rfl
      cases hfresh node scaleBits level ((Graph.op?_eq_ok hg.ascending).mp hop)
      exact Approximate.spares_encode hb.toRemote (fun hlt => absurd hlt (Nat.not_lt_zero _)) slots
        scaleBits
    · intro c steps left _ _
      exact (Packed.spares_rotate (Evaluator.spares_requireRotation hk rfl) c).liftM

end Machine

open Machine

variable {m : Machine .ckks} {g : Graph} {t : Typing} {D : NodeId → Nat} {o : CompileOptions}
  {sig : Signature} {keys : Public .ckks} {keyId : KeyId} {valuation : Valuation}
  {noise : String → Noise}
  {inputs : SchemeValuation .ckks} {v v' u u' : Vault}

theorem Enters.level_eq {context : Context} {width : Nat} {slots : List Float}
    {info : InputEncoding} {noise : Noise} {x : Value .ckks}
    (h : Enters (S := .ckks) context keyId width slots info noise v v' x) (hinfo : info.level = 0) :
    x.level context.maxLevel = context.maxLevel := by
  cases h with
  | raw => rfl
  | plain _ _ hencode =>
    rw [hinfo] at hencode
    exact Approximate.level_of_encode hencode
  | cipher _ _ hencode hencrypt =>
    rw [hinfo] at hencode
    have hlevel := Approximate.level_of_encrypt (runs_liftM.mp hencrypt).1.symm
    exact hlevel.trans (Approximate.level_of_encode hencode)

theorem Starts.levelled (hg : g.Sound) (hsig : g.signature t o = .ok sig)
    (hinputs : Runs (encrypt .ckks keys.context keyId valuation sig noise) u (.ok inputs) u')
    (h : Starts (S := .ckks) keys g inputs m) : m.Levelled g keys t D [] where
  frame := h.frame
  typed := h.wellTyped hg hsig (conforms_encrypt hinputs)
  depth id hid := nomatch hid
  level := by
    refine (bindAll_induct (P := fun k => k.graph = g ∧ ∀ id x, k.values.find? id = some x →
      x.level keys.context.maxLevel = keys.context.maxLevel) h.bound ⟨rfl, by simp⟩ ?_).2
    rintro k node name x hx ⟨hgraph, hk⟩ hnode -
    refine ⟨hgraph, OrderedMap.forall_find?_insert ?_ hk⟩
    obtain ⟨p, v₁, v₂, -, hrun⟩ := encrypt_ok hinputs hx
    obtain ⟨info, slots, hinfo, -, henters⟩ := encryptInput_ok hrun
    rw [hgraph] at hnode
    refine henters.level_eq ?_
    rw [(Graph.type_of_signature hg hsig hnode hinfo).2]
    rfl

theorem Parameters.maxLevel_of_select {kind : SchemeKind} {r : KeyRequirements} {c : SchemeConfig}
    {p : Parameters} (h : Parameters.select kind r c = .ok p) (hkind : kind = .ckks) :
    p.maxLevel = r.depth := by
  subst hkind
  obtain ⟨degree, rfl⟩ := selectApproximate_ok (select_ok h).1
  change (approximateChain c r.depth).length - 2 = r.depth
  simp [approximateChain]

theorem Compilation.Accepted.depth_le {co : Compilation} (hco : co.Accepted) {cg : CompiledGraph}
    (hcg : cg ∈ co.graphs) : cg.requirements.depth ≤ co.requirements.depth :=
  hco.le_requirements (f := (·.depth)) (fun _ _ => rfl) rfl hcg

/-- With keys that were made for a compilation, there are as many levels as its graphs together are
deep. Where nothing is encoded at a lower level, the ciphertext of a node lacks as many of them as
there are products and quotients of ciphertexts on the longest path of operands to the node. No
visit and no execution finds the levels exhausted, whatever noise is drawn for the inputs. -/
theorem levels_exact {co : Compilation} (hco : co.Accepted) {config : SchemeConfig} {fresh : Random}
    {cache cache' : ContextCache} {inUse : Context → Bool} {w w' : Vault} (hcache : cache.Reachable)
    {pub : Public SchemeKind.ckks} {sec : Secret SchemeKind.ckks}
    (hkeys : (keygen .ckks co.scheme co.requirements config fresh cache inUse).run w =
      ((cache', .ok (pub, sec)), w'))
    {g : Graph} (hg : g.Reachable) (hfresh : g.EncodesFresh) {c c' : IdCounters}
    {cg : CompiledGraph} (hcompile : Runs (g.compile o) c (.ok cg) c') (hcg : cg ∈ co.graphs)
    (noise : String → Noise)
    (hinputs : Runs (encrypt .ckks pub.context keyId valuation cg.signature noise) u (.ok inputs)
      u') :
    pub.context.maxLevel = co.requirements.depth ∧
    (∀ v id m v₁, Reaches (S := .ckks) pub cg.graph inputs v id m v₁ →
      (∀ m' v₂ (x : Approximate.Ciphertext), Runs (m.visit id) v₁ (.ok m') v₂ →
        m'.values.find? id = some (.cipher x) →
          ∃ d, cg.graph.IsDepth cg.types id d ∧ x.level + d = pub.context.maxLevel) ∧
      ∀ node v₂, ¬ Runs (m.visit id) v₁
        (.error (.arithmetic node (.primitive .levelExhausted))) v₂) ∧
    ∀ v node v', ¬ Runs (execute .ckks pub cg.graph inputs) v
      (.error (.arithmetic node (.primitive .levelExhausted))) v' := by
  obtain ⟨-, p, context, hselect, hcontext, hgenerate⟩ := keygen_ok hkeys
  have hmax : pub.context.maxLevel = co.requirements.depth := by
    rw [(paired_generateKeys hgenerate).context.1, Context.maxLevel,
      ((hcache.coherent.getOrCreate hcontext).2 context rfl).1]
    exact Parameters.maxLevel_of_select hselect rfl
  obtain ⟨first, hstages⟩ := Graph.compile_ok hcompile
  have hsound := (hstages.reachable hg).sound
  have hfresh := hstages.encodesFresh hg hfresh
  obtain ⟨D, hD⟩ := Graph.exists_reckons hsound hstages.requirements
  have hlimit : cg.requirements.depth ≤ pub.context.maxLevel := by
    rw [hmax]
    exact hco.depth_le hcg
  have hvisits {v : Vault} {id : NodeId} {m : Machine .ckks} {v₁ : Vault}
      (h : Reaches (S := .ckks) pub cg.graph inputs v id m v₁) :
      Avoids ExecError.isExhausted (m.visit id) ∧
        ∀ m' v₂ (x : Approximate.Ciphertext), Runs (m.visit id) v₁ (.ok m') v₂ →
          m'.values.find? id = some (.cipher x) →
            ∃ d, cg.graph.IsDepth cg.types id d ∧ x.level + d = pub.context.maxLevel := by
    obtain ⟨start, before, after, left, hstart, ho, hpass⟩ := h
    have hbefore : cg.graph.forwardOrder = .ok ([] ++ before ++ id :: after) := ho
    have hm := (hstart.levelled hsound hstages.signature hinputs).passes hsound hstages.types hD
      hfresh hbefore hpass
    rw [List.nil_append] at hm
    refine ⟨hm.avoids_visit hsound hstages.types hD ho hlimit hfresh, fun m' v₂ x hvisit hx => ?_⟩
    have hm' := hm.visit hsound hstages.types hD ho hfresh hvisit
    have hlast : id ∈ before ++ [id] := by simp
    refine ⟨D id, hm'.depth id hlast, ?_⟩
    rw [← Graph.reckoned_of_mem (D := D) hlast]
    exact hm'.level id _ hx
  refine ⟨hmax, fun v id m v₁ h => ⟨(hvisits h).2, fun node v₂ hvisit => ?_⟩,
    fun v node v' h => ?_⟩
  · cases (hvisits h).1 v₁ _ v₂ hvisit
  · rcases execute_error h with ⟨_, heq⟩ | ⟨_, heq⟩ | ⟨_, heq | heq⟩ | ⟨id, m, v₁, hreach, hvisit⟩
    any_goals cases heq
    cases (hvisits hreach).1 v₁ _ v' hvisit

def square : Graph :=
  { Graph.blank "g" 1 ⟨0⟩ with
    nodes := [⟨0, .input "x" .cipher⟩, ⟨1, .arithmetic .mul⟩, ⟨2, .output "z"⟩]
    edges := [⟨⟨1, 0⟩, ⟨2, 0⟩, 0⟩, ⟨⟨0, 0⟩, ⟨1, 0⟩, 1⟩, ⟨⟨0, 0⟩, ⟨1, 0⟩, 0⟩]
    inputs := ⟨[("x", 0)]⟩
    outputs := ⟨[("z", 2)]⟩ }

theorem reachable_square : square.Reachable := by
  have hcreate : Graph.create "g" 1 ⟨0⟩ = .ok (.blank "g" 1 ⟨0⟩) := rfl
  have h₀ : (Graph.blank "g" 1 ⟨0⟩).Built ⟨[0]⟩ := .create hcreate (by decide)
  have h₁ := h₀.extend (by decide) (.input "x" .cipher) [] rfl (by simp) rfl
  have h₂ := h₁.extend (by decide) (.arithmetic .mul) [0, 0] rfl (by decide) trivial
  exact (h₂.extend (by decide) (.output "z") [1] rfl (by decide) rfl).reachable

def compiledSquare : CompiledGraph where
  scheme := .ckks
  graph := square
  types := ⟨[(0, .cipher), (1, .cipher), (2, .cipher)]⟩
  signature := ⟨1, ⟨[("x", ⟨.cipher, 60, 0⟩)]⟩, ⟨[("z", .cipher)]⟩⟩
  requirements := ⟨[], 1, true, 1⟩
  report := .unchanged

theorem compile_square :
    Runs (square.compile (.ofScheme .ckks)) ⟨[3]⟩ (.ok compiledSquare) ⟨[3]⟩ := by
  unfold Runs
  cbv

def encryptedSix (keyId : KeyId) : SchemeValuation .ckks :=
  ⟨[("x", .cipher (repeated keyId "x" 6))]⟩

set_option maxRecDepth 20000 in
theorem encrypt_six (keyId : KeyId) (v : Vault) :
    Runs (encrypt .ckks smallContext keyId ⟨[("x", .integer 6)]⟩ compiledSquare.signature hiss) v
      (.ok (encryptedSix keyId)) v := by
  unfold Runs
  rfl

def boundSquare (pub : Public SchemeKind.ckks) : Machine .ckks :=
  ⟨square, pub, ⟨[(0, .cipher (repeated pub.keyId "x" 6))]⟩⟩

theorem operands_square : square.operands 0 = [] ∧ square.operands 1 = [0, 0] :=
  ⟨Graph.operands_eq_reverse (by decide), Graph.operands_eq_reverse (by decide)⟩

theorem reaches_boundSquare (pub : Public SchemeKind.ckks) (hpub : pub.context = smallContext)
    (v : Vault) :
    Reaches (S := .ckks) pub square (encryptedSix pub.keyId) v 1 (boundSquare pub) v := by
  have horder : square.forwardOrder = .ok ([0] ++ 1 :: [2]) := by cbv
  refine ⟨boundSquare pub, [0], [2], square.useCounts, ⟨?_, ?_⟩, horder, ?_⟩
  · rw [hpub]
    decide
  · have hx : square.inputs.find? "x" = some 0 := by decide
    rw [encryptedSix, bindAll_cons hx (by rintro _ ⟨⟩; rfl)]
    rfl
  · have hvisit : Runs ((boundSquare pub).visit 0) v (.ok (boundSquare pub)) v := by
      have hop : (boundSquare pub).graph.op? 0 = .ok (.input "x" .cipher) := rfl
      have hheld : (boundSquare pub).values.contains 0 = true := rfl
      rw [visit_input hop, if_pos hheld]
      exact runs_pure.mpr ⟨rfl, rfl⟩
    have hfree : (boundSquare pub).freeOperands square.useCounts
        ((boundSquare pub).graph.operands 0) = (boundSquare pub, square.useCounts) := by
      change (boundSquare pub).freeOperands _ (square.operands 0) = _
      rw [operands_square.1]
      rfl
    refine .cons hvisit ?_
    rw [hfree]
    exact .nil ..

theorem visit_boundSquare (pub : Public SchemeKind.ckks) {k : EvaluationKeys}
    (hk : pub.evaluationKeys = some k) (hrelin : k.relin = true) (v : Vault) :
    ∃ (m : Machine .ckks) (x : Approximate.Ciphertext),
      Runs ((boundSquare pub).visit 1) v (.ok m) v ∧ m.values.find? 1 = some (.cipher x) := by
  have hoperands : (boundSquare pub).graph.operands 1 = [0, 0] := operands_square.2
  have hrequire : (boundSquare pub).evaluator.requireRelin = .ok () := by
    rw [requireRelin_eq (k := k) hk, hrelin]
    rfl
  have hsquare (a : Approximate.Ciphertext) (ha : a.level = 1) :
      ∃ x, Approximate.combine .mul (boundSquare pub).evaluator a a = .ok x := by
    unfold Approximate.combine
    rw [hrequire]
    simp only [Approximate.rescale, Packed.zip, sameKey, Packed.zipSlots, ha, min_self, if_true]
    exact ⟨_, rfl⟩
  obtain ⟨x, hx⟩ := hsquare (repeated pub.keyId "x" 6) rfl
  refine ⟨(boundSquare pub).put 1 (.cipher x), x, ?_, OrderedMap.find?_insert_self⟩
  have hop : (boundSquare pub).graph.op? 1 = .ok (.arithmetic .mul) := rfl
  have hvalue : Runs ((boundSquare pub).value 0) v (.ok (.cipher (repeated pub.keyId "x" 6))) v :=
    runs_value_ok.mpr ⟨rfl, rfl⟩
  rw [visit_of_not_input hop (by simp), evaluate_arithmetic hoperands]
  refine runs_bind_ok.mpr ⟨.cipher x, v, ?_, runs_pure.mpr ⟨rfl, rfl⟩⟩
  rw [runs_bind_of_ok hvalue, runs_bind_of_ok hvalue]
  refine runs_bind_ok.mpr ⟨(), v, runs_pure.mpr ⟨rfl, rfl⟩, ?_⟩
  exact runs_bind_ok.mpr ⟨x, v, runs_atNode_ok.mpr (runs_liftM.mpr ⟨hx.symm, rfl⟩),
    runs_pure.mpr ⟨rfl, rfl⟩⟩

theorem isDepth_square : square.IsDepth compiledSquare.types 1 1 := by
  obtain ⟨h₀, h₁⟩ := operands_square
  have hfirst : square.IsDepth compiledSquare.types 0 0 := by
    have h : square.IsDepth compiledSquare.types 0 _ :=
      Graph.isDepth_of_operands (D := fun _ => 0) (by simp [h₀])
    rw [h₀] at h
    exact h
  have h : square.IsDepth compiledSquare.types 1 _ :=
    Graph.isDepth_of_operands (D := fun _ => 0) (by simp [h₁, hfirst])
  rw [h₁] at h
  exact h

theorem levels_exact_square :
    ∃ (pub : Public SchemeKind.ckks) (sec : Secret SchemeKind.ckks) (cache : ContextCache),
      (keygen .ckks .ckks compiledSquare.requirements smallConfig (.ofSeed 7) (.create 1)
        fun _ => true).run .empty = ((cache, .ok (pub, sec)), ⟨[.empty]⟩) ∧
      pub.context.maxLevel = 1 ∧
      ∀ v, ∃ m m' x, Reaches (S := .ckks) pub square (encryptedSix pub.keyId) v 1 m v ∧
        Runs (m.visit 1) v (.ok m') v ∧ m'.values.find? 1 = some (.cipher x) ∧
          PackedCiphertext.level x = 0 := by
  have hselect : Parameters.select .ckks compiledSquare.requirements smallConfig =
      .ok smallContext.params := rfl
  have hcache : ((ContextCache.create 1).getOrCreate smallContext.params fun _ => true).run .empty =
      ((⟨1, [(smallContext.params, smallContext)]⟩, .ok smallContext), ⟨[.empty]⟩) := rfl
  obtain ⟨pub, sec, hkeys, hpair⟩ := exists_keygen hselect hcache rfl rfl (.ofSeed 7)
  have hcontext := hpair.context.1
  have hencrypt := encrypt_six pub.keyId .empty
  rw [← hcontext] at hencrypt
  have hfresh : square.EncodesFresh := by simp [Graph.EncodesFresh, square]
  obtain ⟨hmax, hlevels, -⟩ := levels_exact (.graph reachable_square compile_square) (.create 1)
    hkeys reachable_square hfresh compile_square List.mem_cons_self hiss
    hencrypt
  refine ⟨pub, sec, _, hkeys, hmax, fun v => ?_⟩
  obtain ⟨k, hk, hrelin⟩ := hpair.evaluationKeys
  obtain ⟨m', x, hvisit, hx⟩ := visit_boundSquare pub hk hrelin v
  have hreach := reaches_boundSquare pub hcontext v
  obtain ⟨d, hd, hlevel⟩ := (hlevels v 1 _ v hreach).1 m' v x hvisit hx
  cases hd.unique isDepth_square
  refine ⟨_, m', x, hreach, hvisit, hx, ?_⟩
  rw [hmax] at hlevel
  exact Nat.succ.inj hlevel

end CipherGraph

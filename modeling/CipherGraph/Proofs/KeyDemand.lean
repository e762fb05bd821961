import CipherGraph.Proofs.Classes
import CipherGraph.Proofs.KeyPairs
import CipherGraph.Proofs.Primitives
import CipherGraph.Proofs.Requirements

/-! # Which keys an execution asks for

Every primitive that needs evaluation keys finds them in a generated public half, except that
relinearization keys are made for products of ciphertexts only, while the approximate family also
asks for them when it divides ciphertexts.
-/

namespace CipherGraph

/-- The failures for want of a key that key generation decides about. -/
def EvalError.isMissingKey : EvalError → Bool
  | .missingEvaluationKeys | .missingRelinKey => true
  | _ => false

def ExecError.isMissingKey : ExecError → Bool
  | .absent (.primitive e _) => e.isMissingKey
  | _ => false

theorem EvalError.isMissingKey_atNode (e : EvalError) (node : NodeId) :
    (e.atNode node).isMissingKey = e.isMissingKey := by
  cases e <;> rfl

variable {ev : Evaluator} {k : EvaluationKeys}

theorem requireKeys_eq (hk : ev.keys = some k) : ev.requireKeys = .ok k := by
  rw [Evaluator.requireKeys, hk]

theorem requireRelin_eq (hk : ev.keys = some k) :
    ev.requireRelin = if k.relin then .ok () else .error .missingRelinKey := by
  rw [Evaluator.requireRelin, requireKeys_eq hk]
  rfl

theorem requireRelin_eq_error (hk : ev.keys = some k) (hr : k.relin = false) :
    ev.requireRelin = .error .missingRelinKey := by
  rw [requireRelin_eq hk, hr]
  rfl

theorem spares_requireKeys (hk : ev.keys = some k) :
    Spares EvalError.isMissingKey ev.requireKeys := by
  rw [requireKeys_eq hk]
  exact spares_ok k

theorem spares_requireRelin (hk : ev.keys = some k) (hr : k.relin = true) :
    Spares EvalError.isMissingKey ev.requireRelin := by
  rw [requireRelin_eq hk, if_pos hr]
  exact spares_ok ()

theorem remote_isMissingKey : ExecError.Remote EvalError.isMissingKey ExecError.isMissingKey where
  released _ := rfl
  keyMismatch _ _ := rfl
  invalid _ := rfl
  atNode := EvalError.isMissingKey_atNode
  configuration _ := rfl
  constantSlots _ _ := rfl
  encodeOf _ _ := rfl
  plainNegation _ := rfl
  plainRotation _ := rfl
  rawLengths _ _ _ := rfl

open Command

variable {kind : SchemeKind}

/-- What a scheme asks of evaluation keys: it fails for want of relinearization keys where it
relinearizes, and nowhere else. -/
structure Demands (S : Scheme) : Prop extends S.Reserves EvalError.isMissingKey where
  missing : ∀ op ev (k : EvaluationKeys) a b v, ev.keys = some k →
    S.kind.relinearizes op = true → k.relin = false →
      Runs (S.combine op ev a b) v (.error .missingRelinKey) v

theorem demands (kind : SchemeKind) : Demands (schemeOf kind) := by
  refine ⟨reserves remote_isMissingKey.toRemote rfl kind, fun op ev k a b v hk hop hr => ?_⟩
  have herror : ev.requireRelin = .error .missingRelinKey := requireRelin_eq_error hk hr
  cases kind with
  | bitwise => cases op <;> cases hop
  | ckks | bfv =>
    cases op <;> cases hop <;>
      exact runs_liftM.mpr ⟨(Except.bind_eq_error.mpr (.inl herror)).symm, rfl⟩

variable {S : Scheme} {node : NodeId}

namespace Machine

variable {m : Machine S} (hS : Demands S) (hk : m.keys.evaluationKeys = some k)

include hS hk

/-- A visit asks in vain only for relinearization keys, to combine two ciphertexts. -/
theorem avoids_visit (hr : ∀ op lhs rhs rest a b, m.graph.op? node = .ok (.arithmetic op) →
      m.graph.operands node = lhs :: rhs :: rest → m.values.find? lhs = some (.cipher a) →
        m.values.find? rhs = some (.cipher b) → S.kind.relinearizes op = true → k.relin = true) :
    Avoids ExecError.isMissingKey (m.visit node) := by
  refine avoids_visit_of remote_isMissingKey (fun _ => rfl) (fun _ => rfl) (fun _ => rfl) ?_ ?_
  · intro op lhs rhs rest x y hop hoperands hx hy
    refine avoids_arithmetic remote_isMissingKey hS.toReserves (spares_requireKeys hk)
      (fun a b ha hb hrelin => ?_) (fun _ _ => rfl) rfl (fun _ => rfl) fun _ => rfl
    exact spares_requireRelin hk
      (hr op lhs rhs rest a b hop hoperands (ha ▸ hx) (hb ▸ hy) hrelin)
  · intro op operand rest x _ _ _
    exact avoids_unary remote_isMissingKey hS.toReserves (spares_requireKeys hk) x (fun _ => rfl)
      (.inr rfl)

theorem visit_missing {op : Arithmetic} {lhs rhs : NodeId} {a b : S.Ciphertext} {v : Vault}
    (hop : m.graph.op? node = .ok (.arithmetic op)) (hoperands : m.graph.operands node = [lhs, rhs])
    (ha : m.values.find? lhs = some (.cipher a)) (hb : m.values.find? rhs = some (.cipher b))
    (hr : S.kind.relinearizes op = true) (hrelin : k.relin = false) :
    Runs (m.visit node) v (.error (.absent (.primitive .missingRelinKey (some node)))) v := by
  have hkeys : Runs (m.requireKeys node op) v (.ok ()) v := by
    have hev : m.evaluator.keys = some k := hk
    unfold requireKeys
    split
    · rw [requireKeys_eq hev]
      exact runs_bind_ok.mpr ⟨k, v, runs_pure.mpr ⟨rfl, rfl⟩, runs_pure.mpr ⟨rfl, rfl⟩⟩
    · exact runs_pure.mpr ⟨rfl, rfl⟩
  have hcombine : Runs ((S.combine op m.evaluator a b).atNode node) v
      (.error (.absent (.primitive .missingRelinKey (some node)))) v :=
    runs_atNode.mpr ⟨_, hS.missing op m.evaluator k a b v hk hr hrelin, rfl⟩
  rw [visit_of_not_input hop (by simp), evaluate_arithmetic hoperands]
  refine runs_bind_error.mpr (.inl ?_)
  rw [runs_bind_of_ok (runs_value_ok.mpr ⟨ha, rfl⟩), runs_bind_of_ok (runs_value_ok.mpr ⟨hb, rfl⟩)]
  change Runs (do
    m.requireKeys node op
    return Value.cipher (← (S.combine op m.evaluator a b).atNode node)) _ _ _
  rw [runs_bind_of_ok hkeys]
  exact runs_bind_error.mpr (.inl hcombine)

end Machine

open Machine

/-- Pooled requirements ask for relinearization keys if some graph multiplies ciphertexts. -/
theorem Compilation.Accepted.relinearize_iff {co : Compilation} (h : co.Accepted) :
    co.requirements.relinearize = true ↔
      ∃ c ∈ co.graphs, ∃ id, c.graph.Combines c.types .mul id := by
  rw [h.relinearize_iff_exists]
  refine exists_congr fun c => and_congr_right fun hc => ?_
  obtain ⟨g, hg, o, _, _, hcompile⟩ := h.compiled hc
  obtain ⟨first, hstages⟩ := Graph.compile_ok hcompile
  exact Graph.requirements_relinearize (hstages.reachable hg).sound hstages.types
    hstages.requirements

/-- A failing visit, seen from the graph: it combines two ciphertexts without the keys for it. -/
theorem Reaches.combines_of_missing {S : Scheme} (hS : Demands S) {pub : Public S.kind}
    {k : EvaluationKeys} (hk : pub.evaluationKeys = some k) {g : Graph} {t : Typing}
    (hg : g.Sound) {inputs : SchemeValuation S} {v v₁ v' : Vault} {node : NodeId} {m : Machine S}
    (h : Reaches pub g inputs v node m v₁) (ht : m.WellTyped t) {e : ExecError}
    (he : e.isMissingKey = true) (hvisit : Runs (m.visit node) v₁ (.error e) v') :
    ∃ op, g.Combines t op node ∧ S.kind.relinearizes op = true ∧ k.relin = false ∧
      (∀ o ∈ g.operands node, m.values.contains o = true) ∧
        e = .absent (.primitive .missingRelinKey (some node)) := by
  obtain ⟨rfl, rfl⟩ := h.frame
  by_contra hnone
  have havoids : Avoids ExecError.isMissingKey (m.visit node) := by
    refine avoids_visit hS hk fun op lhs rhs rest a b hop hoperands ha hb hr => ?_
    by_contra hrelin
    have hrelin : k.relin = false := Bool.eq_false_iff.mpr hrelin
    have hn := (Graph.op?_eq_ok hg.ascending).mp hop
    have hlen := hg.arity _ hn
    dsimp only at hlen
    rw [hoperands] at hlen
    cases List.length_eq_zero_iff.mp (Nat.succ.inj (Nat.succ.inj hlen))
    have hmissing := visit_missing hS hk (v := v₁) hop hoperands ha hb hr hrelin
    refine hnone ⟨op, ⟨hn, ?_⟩, hr, hrelin, ?_, Except.error.inj (hvisit.unique hmissing).1⟩
    · rw [hoperands]
      simp [ht lhs _ ha, ht rhs _ hb, Value.type]
    · rw [hoperands]
      simp [OrderedMap.contains, ha, hb]
  rw [havoids v₁ e v' hvisit] at he
  cases he

/-- Whatever noise is drawn for the inputs, an execution with generated keys never lacks evaluation
keys, and it lacks relinearization keys exactly if the scheme is the approximate one, no graph of
the compilation multiplies ciphertexts, and the run comes to a division of ciphertexts, at which it
then fails. -/
theorem execute_missing_key_iff {co : Compilation} (hco : co.Accepted) (kind : SchemeKind)
    {config : SchemeConfig} {fresh : Random} {cache cache' : ContextCache} {inUse : Context → Bool}
    {w w' : Vault} {pub : Public (schemeOf kind).kind} {sec : Secret (schemeOf kind).kind}
    (hkeys : (keygen (schemeOf kind).kind co.scheme co.requirements config fresh cache inUse).run
      w = ((cache', .ok (pub, sec)), w'))
    {cg : CompiledGraph} (hcg : cg ∈ co.graphs) {valuation : Valuation}
    (noise : String → Noise) {inputs : SchemeValuation (schemeOf kind)} {u u' : Vault}
    (hinputs : Runs (encrypt (schemeOf kind) pub.context pub.keyId valuation cg.signature noise) u
      (.ok inputs) u')
    {e : EvalError} (he : e = .missingEvaluationKeys ∨ e = .missingRelinKey) (p : Option NodeId)
    (v : Vault) :
    (∃ v', Runs (execute (schemeOf kind) pub cg.graph inputs) v
        (.error (.absent (.primitive e p))) v') ↔
      kind = .ckks ∧ e = .missingRelinKey ∧
        (∀ c ∈ co.graphs, ∀ id, ¬ c.graph.Combines c.types .mul id) ∧
          ∃ id m v', p = some id ∧ cg.graph.Combines cg.types .div id ∧
            Reaches pub cg.graph inputs v id m v' ∧
              ∀ o ∈ cg.graph.operands id, m.values.contains o = true := by
  obtain ⟨g, hg, o, _, _, hcompile⟩ := hco.compiled hcg
  obtain ⟨first, hstages⟩ := Graph.compile_ok hcompile
  have hsound := (hstages.reachable hg).sound
  have htyped := Graph.typed_of_inferTypes hsound hstages.types
  obtain ⟨-, _, context, -, -, hgenerate⟩ := keygen_ok hkeys
  obtain ⟨k, hk, hrelin⟩ := (paired_generateKeys hgenerate).evaluationKeys
  have hmultiplies : k.relin = false ↔
      ∀ c ∈ co.graphs, ∀ id, ¬ c.graph.Combines c.types .mul id := by
    rw [hrelin, ← Bool.not_eq_true, hco.relinearize_iff]
    simp
  have hwell {node : NodeId} {m : Machine (schemeOf kind)} {v' : Vault}
      (h : Reaches pub cg.graph inputs v node m v') : m.WellTyped cg.types :=
    h.wellTyped hsound htyped hstages.signature (conforms_encrypt hinputs)
  constructor
  · rintro ⟨v', h⟩
    rcases execute_error h with ⟨_, heq⟩ | ⟨_, heq⟩ | ⟨_, heq | heq⟩ | ⟨node, m, v₁, hreach, hvisit⟩
    any_goals cases heq
    have hbad : (ExecError.absent (.primitive e p)).isMissingKey = true := by
      rcases he with rfl | rfl <;> rfl
    obtain ⟨op, hcombines, hr, hk', hheld, heq⟩ :=
      hreach.combines_of_missing (demands kind) hk hsound (hwell hreach) hbad hvisit
    cases heq
    have hnone := hmultiplies.mp hk'
    have hop : kind = .ckks ∧ op = .div := by
      rw [kind_schemeOf] at hr
      cases op with
      | mul => exact absurd hcombines (hnone cg hcg node)
      | div => cases kind <;> cases hr; exact ⟨rfl, rfl⟩
      | add | sub => cases kind <;> cases hr
    obtain ⟨rfl, rfl⟩ := hop
    exact ⟨rfl, rfl, hnone, node, m, v₁, rfl, hcombines, hreach, hheld⟩
  · rintro ⟨rfl, rfl, hnone, id, m, v', rfl, hcombines, hreach, hheld⟩
    obtain ⟨lhs, rhs, hoperands⟩ := List.length_eq_two.mp (hsound.arity _ hcombines.node)
    dsimp only at hoperands
    have hcipher (o : NodeId) (ho : o ∈ cg.graph.operands id) :
        ∃ a, m.values.find? o = some (.cipher a) := by
      obtain ⟨x, hx⟩ := Option.isSome_iff_exists.mp (hheld o ho)
      have htype := (hwell hreach o x hx).symm.trans (hcombines.encrypted o ho)
      cases x with
      | cipher a => exact ⟨a, hx⟩
      | plain | raw => cases htype
    obtain ⟨a, ha⟩ := hcipher lhs (by simp [hoperands])
    obtain ⟨b, hb⟩ := hcipher rhs (by simp [hoperands])
    have hgraph := hreach.frame.1
    have hop : m.graph.op? id = .ok (.arithmetic .div) := by
      rw [hgraph]
      exact (Graph.op?_eq_ok hsound.ascending).mpr hcombines.node
    have hkeys' : m.keys.evaluationKeys = some k := by
      rw [hreach.frame.2, hk]
    exact ⟨v', hreach.execute_error (visit_missing (demands .ckks) hkeys' hop
      (hgraph.symm ▸ hoperands) ha hb rfl (hmultiplies.mpr hnone))⟩

def quotient : Graph :=
  { Graph.blank "g" 1 ⟨0⟩ with
    nodes :=
      [⟨0, .input "x" .cipher⟩, ⟨1, .input "y" .cipher⟩, ⟨2, .arithmetic .div⟩, ⟨3, .output "z"⟩]
    edges := [⟨⟨2, 0⟩, ⟨3, 0⟩, 0⟩, ⟨⟨1, 0⟩, ⟨2, 0⟩, 1⟩, ⟨⟨0, 0⟩, ⟨2, 0⟩, 0⟩]
    inputs := ⟨[("x", 0), ("y", 1)]⟩
    outputs := ⟨[("z", 3)]⟩ }

theorem reachable_quotient : quotient.Reachable := by
  have hcreate : Graph.create "g" 1 ⟨0⟩ = .ok (.blank "g" 1 ⟨0⟩) := rfl
  have h₀ : (Graph.blank "g" 1 ⟨0⟩).Built ⟨[0]⟩ := .create hcreate (by decide)
  have h₁ := h₀.extend (by decide) (.input "x" .cipher) [] rfl (by simp) rfl
  have h₂ := h₁.extend (by decide) (.input "y" .cipher) [] rfl (by simp) rfl
  have h₃ := h₂.extend (by decide) (.arithmetic .div) [0, 1] rfl (by decide) trivial
  exact (h₃.extend (by decide) (.output "z") [2] rfl (by decide) rfl).reachable

def compiledQuotient : CompiledGraph where
  scheme := .ckks
  graph := quotient
  types := ⟨[(0, .cipher), (1, .cipher), (2, .cipher), (3, .cipher)]⟩
  signature := ⟨1, ⟨[("x", ⟨.cipher, 60, 0⟩), ("y", ⟨.cipher, 60, 0⟩)]⟩, ⟨[("z", .cipher)]⟩⟩
  requirements := ⟨[], 1, false, 1⟩
  report := .unchanged

theorem accepted_quotient : Compilation.Accepted (.graph compiledQuotient) := by
  have h : Runs (quotient.compile (.ofScheme .ckks)) ⟨[4]⟩ (.ok compiledQuotient) ⟨[4]⟩ := by
    unfold Runs
    cbv
  exact .graph reachable_quotient h

def smallConfig : SchemeConfig :=
  { SchemeConfig.default with
    scaleBits := 9
    specialPrimeBits := 9
    seed := some 7 }

def smallContext : Context := ⟨0, ⟨.ckks, 1024, [9, 9, 9], 0, 0, true⟩⟩

/-- Noise that turns up and down from slot to slot. -/
def hiss : String → Noise := fun _ i => if i % 2 = 0 then 0.5 else -0.5

def repeated (keyId : KeyId) (name : String) (v : Int64) : Approximate.Ciphertext :=
  ⟨keyId, 1, 60, Approximate.addNoise (hiss name) (List.replicate 512 (Slot.realOf v))⟩

def sixAndTwo (keyId : KeyId) : SchemeValuation .ckks :=
  ⟨[("x", .cipher (repeated keyId "x" 6)), ("y", .cipher (repeated keyId "y" 2))]⟩

set_option maxRecDepth 20000 in
theorem encrypt_sixAndTwo (keyId : KeyId) (v : Vault) :
    Runs (encrypt .ckks smallContext keyId ⟨[("x", .integer 6), ("y", .integer 2)]⟩
      compiledQuotient.signature hiss) v (.ok (sixAndTwo keyId)) v := by
  unfold Runs
  rfl

def boundQuotient (pub : Public SchemeKind.ckks) : Machine .ckks :=
  ⟨quotient, pub,
    ⟨[(0, .cipher (repeated pub.keyId "x" 6)), (1, .cipher (repeated pub.keyId "y" 2))]⟩⟩

theorem reaches_boundQuotient (pub : Public SchemeKind.ckks) (hpub : pub.context = smallContext)
    (v : Vault) :
    Reaches pub quotient (sixAndTwo pub.keyId) v 2 (boundQuotient pub) v := by
  have hvisit (node : NodeId) (name : String)
      (hop : quotient.op? node = .ok (.input name .cipher))
      (hheld : (boundQuotient pub).values.contains node = true) :
      Runs ((boundQuotient pub).visit node) v (.ok (boundQuotient pub)) v := by
    rw [visit_input hop, if_pos hheld]
    exact runs_pure.mpr ⟨rfl, rfl⟩
  have horder : quotient.forwardOrder = .ok ([0, 1] ++ 2 :: [3]) := by cbv
  refine ⟨boundQuotient pub, [0, 1], [3], quotient.useCounts, ⟨?_, ?_⟩, horder, ?_⟩
  · rw [hpub]
    decide
  · have hx : quotient.inputs.find? "x" = some 0 := by decide
    have hy : quotient.inputs.find? "y" = some 1 := by decide
    rw [sixAndTwo, bindAll_cons hx (by rintro _ ⟨⟩; rfl), bindAll_cons hy (by rintro _ ⟨⟩; rfl)]
    rfl
  · have h₀ : quotient.operands 0 = [] := Graph.operands_eq_reverse (by decide)
    have h₁ : quotient.operands 1 = [] := Graph.operands_eq_reverse (by decide)
    have hfree (node : NodeId) (h : quotient.operands node = []) :
        (boundQuotient pub).freeOperands quotient.useCounts
          ((boundQuotient pub).graph.operands node) = (boundQuotient pub, quotient.useCounts) := by
      change (boundQuotient pub).freeOperands _ (quotient.operands node) = _
      rw [h]
      rfl
    refine .cons (hvisit 0 "x" rfl rfl) ?_
    rw [hfree 0 h₀]
    refine .cons (hvisit 1 "y" rfl rfl) ?_
    rw [hfree 1 h₁]
    exact .nil ..

theorem execute_missing_key_iff_quotient :
    ∃ (pub : Public SchemeKind.ckks) (sec : Secret SchemeKind.ckks) (cache : ContextCache),
      (keygen .ckks .ckks compiledQuotient.requirements smallConfig (.ofSeed 7) (.create 1)
        fun _ => true).run .empty = ((cache, .ok (pub, sec)), ⟨[.empty]⟩) ∧
      Runs (encrypt .ckks pub.context pub.keyId ⟨[("x", .integer 6), ("y", .integer 2)]⟩
        compiledQuotient.signature hiss) ⟨[.empty]⟩ (.ok (sixAndTwo pub.keyId)) ⟨[.empty]⟩ ∧
      ∃ v, Runs (execute .ckks pub quotient (sixAndTwo pub.keyId)) ⟨[.empty]⟩
        (.error (.absent (.primitive .missingRelinKey (some 2)))) v := by
  have hselect : Parameters.select .ckks compiledQuotient.requirements smallConfig =
      .ok smallContext.params := rfl
  have hcache : ((ContextCache.create 1).getOrCreate smallContext.params fun _ => true).run .empty =
      ((⟨1, [(smallContext.params, smallContext)]⟩, .ok smallContext), ⟨[.empty]⟩) := rfl
  obtain ⟨pub, sec, hkeys, hpair⟩ := exists_keygen hselect hcache rfl rfl (.ofSeed 7)
  have hcontext := hpair.context.1
  have hencrypt := encrypt_sixAndTwo pub.keyId ⟨[.empty]⟩
  rw [← hcontext] at hencrypt
  refine ⟨pub, sec, _, hkeys, hencrypt, ?_⟩
  have hoperands : quotient.operands 2 = [0, 1] := Graph.operands_eq_reverse (by decide)
  have hdivides : quotient.Combines compiledQuotient.types .div 2 :=
    ⟨by simp [quotient], by rw [hoperands]; decide⟩
  have hnone : ∀ c ∈ (Compilation.graph compiledQuotient).graphs, ∀ id,
      ¬ c.graph.Combines c.types .mul id := by
    rintro c hc id ⟨hnode, -⟩
    cases List.mem_singleton.mp hc
    simp [compiledQuotient, quotient] at hnode
  have hheld : ∀ o ∈ quotient.operands 2, (boundQuotient pub).values.contains o = true := by
    rw [hoperands]
    simp [boundQuotient, OrderedMap.contains, OrderedMap.find?, OrderedMap.lookup]
  exact (execute_missing_key_iff accepted_quotient .ckks hkeys List.mem_cons_self hiss hencrypt
    (.inr rfl) (some 2) ⟨[.empty]⟩).mpr ⟨rfl, rfl, hnone, 2, boundQuotient pub, _, rfl, hdivides,
      reaches_boundQuotient pub hcontext _, hheld⟩

end CipherGraph

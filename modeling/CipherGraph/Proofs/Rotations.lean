import CipherGraph.Proofs.Contexts
import CipherGraph.Proofs.KeyDemand
import CipherGraph.Proofs.TypeSafety
import Mathlib.Data.Int.ModEq
import Mathlib.RingTheory.ZMod.UnitsCyclic
import Mathlib.Tactic.Positivity
import Mathlib.Tactic.Ring

/-! # Rotation keys

The Galois element of a step is a power of five modulo twice the ring degree. Five has half the
degree for its order there, which is the row size, so that steps have one element in common exactly
if they agree modulo the row. Keys made for some steps therefore serve these steps and no others.
-/

namespace CipherGraph

variable {kind : SchemeKind} {context : Context} {k : Nat}

/-- A context whose rows of slots turn under keys of their own. -/
structure Context.Turns (context : Context) (k : Nat) : Prop where
  keyed : context.scheme.capabilities.rotationKeys = true
  degree : context.params.degree.toNat = 2 ^ (k + 1)

namespace Context.Turns

variable (h : context.Turns k)

include h

theorem rowSize_eq : context.rowSize = 2 ^ k := by
  have hkeyed := h.keyed
  unfold Context.rowSize Parameters.rowSize
  unfold Context.scheme at hkeyed
  cases hs : context.params.scheme with
  | bitwise => rw [hs] at hkeyed; cases hkeyed
  | ckks | bfv =>
    dsimp only
    rw [h.degree, Nat.pow_succ, Nat.mul_div_cancel _ (by omega)]

theorem galoisElement?_eq (step : Int) :
    context.galoisElement? step = some (5 ^ (step % context.rowSize).toNat % 2 ^ (k + 2)) := by
  have hkeyed := h.keyed
  have hdouble : 2 * context.params.degree.toNat = 2 ^ (k + 2) := by
    rw [h.degree]
    ring
  unfold Context.galoisElement?
  cases hs : context.scheme with
  | bitwise => rw [hs] at hkeyed; cases hkeyed
  | ckks | bfv =>
    dsimp only
    rw [hdouble]
    rfl

/-- Powers of five repeat after a whole row, and not before. -/
theorem galoisElement?_inj {a b : Int} :
    context.galoisElement? a = context.galoisElement? b ↔ a ≡ b [ZMOD context.rowSize] := by
  have hrow : (0 : Int) < context.rowSize := by
    rw [h.rowSize_eq]
    positivity
  have hfinite : IsOfFinOrder (5 : ZMod (2 ^ (k + 2))) := by
    rw [← orderOf_pos_iff, ZMod.orderOf_five]
    positivity
  have hpow (m n : Nat) : 5 ^ m % 2 ^ (k + 2) = 5 ^ n % 2 ^ (k + 2) ↔ m ≡ n [MOD 2 ^ k] := by
    rw [← ZMod.orderOf_five k, ← hfinite.pow_eq_pow_iff_modEq]
    change 5 ^ m ≡ 5 ^ n [MOD 2 ^ (k + 2)] ↔ _
    rw [← ZMod.natCast_eq_natCast_iff]
    push_cast
    rfl
  rw [h.galoisElement?_eq, h.galoisElement?_eq, Option.some.injEq, hpow, ← h.rowSize_eq,
    ← Int.natCast_modEq_iff, Int.toNat_of_nonneg (Int.emod_nonneg a hrow.ne'),
    Int.toNat_of_nonneg (Int.emod_nonneg b hrow.ne')]
  unfold Int.ModEq
  rw [Int.emod_emod, Int.emod_emod]

end Context.Turns

theorem Context.turns_of_degree (hkeyed : context.scheme.capabilities.rotationKeys = true)
    (hdegree : ∃ d ∈ Parameters.degrees, context.params.degree.toNat = d.1) :
    ∃ k, context.Turns k := by
  obtain ⟨d, hd, hdegree⟩ := hdegree
  obtain ⟨k, -, hk⟩ := Parameters.degree_of_mem d hd
  exact ⟨k, hkeyed, hdegree.trans hk⟩

theorem galoisElements_ok {steps : List Int} {elements : List Nat}
    (h : galoisElements context steps = .ok elements) (element : Nat) :
    element ∈ elements ↔ ∃ s ∈ steps, context.galoisElement? s = some element := by
  have hnil : (∃ s ∈ steps, context.galoisElement? s = some element) ↔
      element ∈ ([] : List Nat) ∨ ∃ s ∈ steps, context.galoisElement? s = some element := by simp
  rw [hnil]
  unfold galoisElements at h
  generalize ([] : List Nat) = start at h ⊢
  clear hnil
  induction steps generalizing start with
  | nil =>
    cases h
    simp
  | cons s steps ih =>
    rw [List.foldlM_cons] at h
    obtain ⟨next, hnext, hrest⟩ := Except.bind_eq_ok.mp h
    refine (ih next hrest).trans ?_
    rw [List.exists_mem_cons_iff, ← or_assoc]
    refine or_congr_left ?_
    split at hnext
    · next made hmade =>
      cases hnext
      rw [Ascending.mem_insert, hmade, Option.some.injEq, eq_comm, or_comm]
    · cases hnext

/-- Every step has an element, so that keys can be made for any requirements. -/
theorem Context.Turns.exists_galoisElements (h : context.Turns k) (steps : List Int) :
    ∃ elements, galoisElements context steps = .ok elements := by
  unfold galoisElements
  generalize ([] : List Nat) = start
  induction steps generalizing start with
  | nil => exact ⟨start, rfl⟩
  | cons s steps ih =>
    rw [List.foldlM_cons, h.galoisElement?_eq]
    exact ih _

variable {r : KeyRequirements} {random : Random} {pub : Public kind} {sec : Secret kind}

/-- A rotation needs no key if it turns whole rows, and otherwise a key made for an equal turn. -/
theorem requireRotation_iff (hturns : context.Turns k)
    (h : generateKeys kind context r random = .ok (pub, sec)) (step : Int) :
    (Evaluator.mk pub.context pub.evaluationKeys).requireRotation step = .ok () ↔
      step ≡ 0 [ZMOD context.rowSize] ∨
        ∃ s ∈ r.rotationSteps, step ≡ s [ZMOD context.rowSize] := by
  obtain ⟨rfl, elements, helements, hcontext, -, -, hkeys⟩ := generateKeys_ok h
  rw [if_pos hturns.keyed] at helements
  have hrow : max (context.rowSize : Int) 1 = context.rowSize := by
    rw [hturns.rowSize_eq]
    exact max_eq_left (by exact_mod_cast Nat.one_le_two_pow)
  have hmem (element : Nat) (he : context.galoisElement? step = some element) :
      element ∈ elements ↔ ∃ s ∈ r.rotationSteps, step ≡ s [ZMOD context.rowSize] := by
    rw [galoisElements_ok helements, ← he]
    exact exists_congr fun s => and_congr_right fun _ =>
      eq_comm.trans hturns.galoisElement?_inj
  have hzero : step.emod context.rowSize = 0 ↔ step ≡ 0 [ZMOD context.rowSize] := by
    rw [Int.ModEq, Int.zero_emod]
    rfl
  rw [hkeys, hcontext]
  unfold Evaluator.requireRotation
  dsimp only
  rw [hrow, ← hzero]
  split
  · next h => simp [h, pure, Except.pure]
  · next h =>
    rw [or_iff_right h]
    obtain ⟨element, he⟩ : ∃ element, context.galoisElement? step = some element :=
      ⟨_, hturns.galoisElement?_eq step⟩
    rw [he, ← hmem element he]
    change (if elements.contains element = true then .ok ()
      else Except.error (EvalError.missingRotationKey step)) = .ok () ↔ _
    split
    · next hin => simpa using hin
    · next hout => simpa using hout

def EvalError.isMissingRotation : EvalError → Bool
  | .missingRotationKey _ => true
  | _ => false

def ExecError.isMissingRotation : ExecError → Bool
  | .absent (.primitive e _) => e.isMissingRotation
  | _ => false

theorem remote_isMissingRotation :
    ExecError.Remote EvalError.isMissingRotation ExecError.isMissingRotation where
  released _ := rfl
  keyMismatch _ _ := rfl
  invalid _ := rfl
  atNode e _ := by cases e <;> rfl
  configuration _ := rfl
  constantSlots _ _ := rfl
  encodeOf _ _ := rfl
  plainNegation _ := rfl
  plainRotation _ := rfl
  rawLengths _ _ _ := rfl

open Command

theorem rotationStep_schemeOf (hkeyed : kind.capabilities.rotationKeys = true) :
    (schemeOf kind).rotationStep = rotationStep := by
  cases kind with
  | bitwise => cases hkeyed
  | ckks | bfv => rfl

theorem Graph.stepOf?_eq {g : Graph} {op : Operation} {steps : Nat} {left : Bool}
    (h : op.turn? = some (steps, left)) :
    g.stepOf? op = some (rotationStep steps g.width left) := by
  unfold Operation.turn? at h
  split at h <;> cases h <;> rfl

/-- A visit lacks a rotation key only if it turns a ciphertext by a step without one. -/
theorem Machine.avoids_visit_of_turns (hkeyed : kind.capabilities.rotationKeys = true)
    {m : Machine (schemeOf kind)} {node : NodeId}
    (hturn : ∀ op operand rest c step, m.graph.op? node = .ok op →
      m.graph.operands node = operand :: rest → m.values.find? operand = some (.cipher c) →
        m.graph.stepOf? op = some step → m.evaluator.requireRotation step = .ok ()) :
    Avoids ExecError.isMissingRotation (m.visit node) := by
  have hS : (schemeOf kind).Reserves EvalError.isMissingRotation :=
    reserves remote_isMissingRotation.toRemote rfl kind
  have hk : Spares EvalError.isMissingRotation m.evaluator.requireKeys :=
    Evaluator.spares_requireKeys rfl
  refine avoids_visit_of remote_isMissingRotation (fun _ => rfl) (fun _ => rfl) (fun _ => rfl)
    ?_ ?_
  · intro op lhs rhs rest x y _ _ _ _
    exact avoids_arithmetic remote_isMissingRotation hS hk
      (fun _ _ _ _ _ => Evaluator.spares_requireRelin hk rfl) (fun _ _ => rfl) rfl (fun _ => rfl)
      fun _ => rfl
  · intro op operand rest x hop hoperands hx
    refine avoids_unary_of remote_isMissingRotation
      (fun scaleBits level slots _ => hS.encode _ slots scaleBits level)
      (fun c => hS.negate _ c hk) (fun c steps left hc hstep => hS.rotate _ c _ hk fun _ => ?_)
      (.inr rfl)
    subst hc
    rw [rotationStep_schemeOf hkeyed,
      hturn op operand rest c _ hop hoperands hx (Graph.stepOf?_eq hstep)]
    exact spares_ok ()

theorem Graph.Typed.find?_turn {g : Graph} {t : Typing} (ht : g.Typed t) (hg : g.Sound)
    {id operand : NodeId} {op : Operation} {rest : List NodeId} {step : Int}
    (hop : g.op? id = .ok op) (hoperands : g.operands id = operand :: rest)
    (hstep : g.stepOf? op = some step) (hcipher : t.find? operand = some .cipher) :
    t.find? id = some .cipher := by
  have hn := (op?_eq_ok hg.ascending).mp hop
  have harity := hg.arity _ hn
  dsimp only at harity
  have hresult : op.arity = 1 ∧ op.result [.cipher] = .cipher := by
    unfold stepOf? at hstep
    split at hstep
    · exact ⟨rfl, rfl⟩
    · exact ⟨rfl, rfl⟩
    · cases hstep
  rw [hoperands, hresult.1, List.length_cons, Nat.add_eq_right, List.length_eq_zero_iff] at harity
  rw [← hresult.2]
  refine ht.find?_eq hg hn ?_
  rw [hoperands, harity, List.map_cons, hcipher]
  rfl

/-- Whole turns and the turns that a compiled graph makes of ciphertexts are served by its keys. -/
theorem Compilation.Accepted.serves_turn {co : Compilation} (hco : co.Accepted)
    (hturns : context.Turns k)
    (hkeys : generateKeys kind context co.requirements random = .ok (pub, sec))
    {cg : CompiledGraph} (hcg : cg ∈ co.graphs) {id : NodeId} {op : Operation} {step : Int}
    (hop : cg.graph.op? id = .ok op) (hstep : cg.graph.stepOf? op = some step)
    (hcipher : cg.types.find? id = some .cipher) :
    (Evaluator.mk pub.context pub.evaluationKeys).requireRotation step = .ok () := by
  obtain ⟨g, hg, o, _, _, hcompile⟩ := hco.compiled hcg
  obtain ⟨first, hstages⟩ := Graph.compile_ok hcompile
  have hsound := (hstages.reachable hg).sound
  rw [requireRotation_iff hturns hkeys]
  by_cases hzero : step = 0
  · exact .inl (hzero ▸ rfl)
  · refine .inr ⟨step, ?_, rfl⟩
    rw [hco.mem_rotationSteps]
    refine ⟨cg, hcg, (Graph.requirements_rotationSteps hsound hstages.requirements step).mpr ?_⟩
    exact ⟨id, ⟨op, (Graph.op?_eq_ok hsound.ascending).mp hop, hstep⟩, hcipher, hzero⟩

theorem requireRotation_of_rotate (hkeyed : kind.capabilities.rotationKeys = true) {ev : Evaluator}
    {c c' : (schemeOf kind).Ciphertext} {step : Int} {v v' : Vault}
    (h : Runs ((schemeOf kind).rotate ev c step) v (.ok c') v') :
    ev.requireRotation step = .ok () := by
  cases kind with
  | bitwise => cases hkeyed
  | ckks | bfv => exact (Except.bind_eq_ok.mp (runs_liftM.mp h).1.symm).elim fun _ h => h.1

/-- Keys generated for some requirements in a context of a supported degree permit a rotation if
and only if it turns whole rows or agrees with a required step modulo the row. An execution of a
graph with the keys of its compilation therefore never lacks a rotation key at an encrypted node,
and it lacks none at all on inputs of the classes declared. -/
theorem rotation_keys_exact (hkeyed : kind.capabilities.rotationKeys = true)
    (hdegree : ∃ d ∈ Parameters.degrees, context.params.degree.toNat = d.1)
    {pub : Public (schemeOf kind).kind} {sec : Secret (schemeOf kind).kind}
    (hkeys : generateKeys (schemeOf kind).kind context r random = .ok (pub, sec)) :
    (∀ step, (Evaluator.mk pub.context pub.evaluationKeys).requireRotation step = .ok () ↔
      step ≡ 0 [ZMOD context.rowSize] ∨
        ∃ s ∈ r.rotationSteps, step ≡ s [ZMOD context.rowSize]) ∧
    (∀ step c c' v v',
      Runs ((schemeOf kind).rotate ⟨pub.context, pub.evaluationKeys⟩ c step) v (.ok c') v' →
        step ≡ 0 [ZMOD context.rowSize] ∨
          ∃ s ∈ r.rotationSteps, step ≡ s [ZMOD context.rowSize]) ∧
    ∀ co : Compilation, co.Accepted → co.requirements = r → ∀ cg ∈ co.graphs,
      ∀ inputs v v' step p, Runs (execute (schemeOf kind) pub cg.graph inputs) v
        (.error (.absent (.primitive (.missingRotationKey step) p))) v' →
          ¬ Declared cg.graph inputs ∧ ∃ id m u, Reaches pub cg.graph inputs v id m u ∧
            Runs (m.visit id) u (.error (.absent (.primitive (.missingRotationKey step) p))) v' ∧
              cg.types.find? id ≠ some .cipher := by
  have hscheme : context.scheme.capabilities.rotationKeys = true := by
    rw [(generateKeys_ok hkeys).1, kind_schemeOf]
    exact hkeyed
  obtain ⟨k, hturns⟩ := Context.turns_of_degree hscheme hdegree
  have hexact := requireRotation_iff hturns hkeys
  refine ⟨hexact, fun step c c' v v' h => (hexact step).mp (requireRotation_of_rotate hkeyed h), ?_⟩
  rintro co hco rfl cg hcg inputs v v' step p h
  obtain ⟨g, hg, o, _, _, hcompile⟩ := hco.compiled hcg
  obtain ⟨first, hstages⟩ := Graph.compile_ok hcompile
  have hsound := (hstages.reachable hg).sound
  have htyped := Graph.typed_of_inferTypes hsound hstages.types
  rcases execute_error h with ⟨_, heq⟩ | ⟨_, heq⟩ | ⟨_, heq | heq⟩ | ⟨node, m, v₁, hreach, hvisit⟩
  any_goals cases heq
  obtain ⟨hgraph, hpub⟩ := hreach.frame
  -- The visit fails, so that the node cannot be encrypted whenever it turns a ciphertext.
  have hfails : ¬ ∀ op operand rest c step, cg.graph.op? node = .ok op →
      cg.graph.operands node = operand :: rest → m.values.find? operand = some (.cipher c) →
        cg.graph.stepOf? op = some step → cg.types.find? node = some .cipher := by
    intro hcipher
    have havoids : Avoids ExecError.isMissingRotation (m.visit node) := by
      refine Machine.avoids_visit_of_turns hkeyed fun op operand rest c step hop hoperands hx
        hstep => ?_
      rw [hgraph] at hop hoperands hstep
      rw [Machine.evaluator, hpub]
      exact hco.serves_turn hturns hkeys hcg hop hstep
        (hcipher op operand rest c step hop hoperands hx hstep)
    cases havoids v₁ _ v' hvisit
  refine ⟨fun hinputs => hfails fun op operand rest c step hop hoperands hx hstep => ?_,
    node, m, v₁, hreach, hvisit, fun hcipher => hfails fun _ _ _ _ _ _ _ _ _ => hcipher⟩
  obtain ⟨start, before, after, left, hstart, ho, hpass⟩ := hreach
  have hwell := (Occurs.passed hstart ho hpass).wellTyped hsound htyped hinputs
  exact htyped.find?_turn hsound hop hoperands hstep (hwell operand _ hx)

/-- The vector `x` of four slots, encrypted, turned right by one slot. -/
def turnedRight : Graph :=
  { Graph.blank "g" 4 ⟨0⟩ with
    nodes := [⟨0, .input "x" .cipher⟩, ⟨1, .rotateRight 1⟩, ⟨2, .output "z"⟩]
    edges := [⟨⟨1, 0⟩, ⟨2, 0⟩, 0⟩, ⟨⟨0, 0⟩, ⟨1, 0⟩, 0⟩]
    inputs := ⟨[("x", 0)]⟩
    outputs := ⟨[("z", 2)]⟩ }

def compiledTurn : CompiledGraph where
  scheme := .ckks
  graph := turnedRight
  types := ⟨[(0, .cipher), (1, .cipher), (2, .cipher)]⟩
  signature := ⟨4, ⟨[("x", ⟨.cipher, 60, 0⟩)]⟩, ⟨[("z", .cipher)]⟩⟩
  requirements := ⟨[-1], 0, false, 4⟩
  report := .unchanged

theorem accepted_compiledTurn : Compilation.Accepted (.graph compiledTurn) := by
  have hcreate : Graph.create "g" 4 ⟨0⟩ = .ok (.blank "g" 4 ⟨0⟩) := rfl
  have h₀ : (Graph.blank "g" 4 ⟨0⟩).Built ⟨[0]⟩ := .create hcreate (by decide)
  have h₁ := h₀.extend (by decide) (.input "x" .cipher) [] rfl (by simp) rfl
  have h₂ := h₁.extend (by decide) (.rotateRight 1) [0] rfl (by decide) trivial
  have h₃ := h₂.extend (by decide) (.output "z") [1] rfl (by decide) rfl
  have hcompile : Runs (turnedRight.compile ⟨.ckks, 60⟩) ⟨[3]⟩ (.ok compiledTurn) ⟨[3]⟩ := by
    unfold Runs
    cbv
  exact .graph h₃.reachable hcompile

/-- Rows of 512 slots. -/
def turnContext : Context := ⟨0, ⟨.ckks, 1024, [9, 9], 0, 0, false⟩⟩

theorem rotation_keys_exact_compiledTurn :
    ∃ (pub : Public .ckks) (sec : Secret .ckks),
      generateKeys .ckks turnContext compiledTurn.requirements (.ofSeed 7) = .ok (pub, sec) ∧
      (Evaluator.mk pub.context pub.evaluationKeys).requireRotation 511 = .ok () ∧
      (Evaluator.mk pub.context pub.evaluationKeys).requireRotation 3 ≠ .ok () ∧
      ∀ v v' step p,
        ¬ Runs (execute .ckks pub turnedRight ⟨[("x", .cipher ⟨pub.keyId, 0, 60, []⟩)]⟩) v
          (.error (.absent (.primitive (.missingRotationKey step) p))) v' := by
  have hturns : turnContext.Turns 9 := ⟨rfl, rfl⟩
  obtain ⟨_, helements⟩ := hturns.exists_galoisElements compiledTurn.requirements.rotationSteps
  obtain ⟨pub, sec, hkeys⟩ := exists_generateKeys rfl helements (.ofSeed 7)
  have hpacked : SchemeKind.ckks.capabilities.rotationKeys = true := rfl
  obtain ⟨hexact, -, hserved⟩ :=
    rotation_keys_exact hpacked ⟨(1024, 27), by decide, rfl⟩ hkeys
  refine ⟨pub, sec, hkeys, (hexact 511).mpr (.inr ⟨-1, by decide, by decide⟩),
    fun h => ?_, fun v v' step p h => ?_⟩
  · rcases (hexact 3).mp h with h | ⟨s, hs, h⟩
    · revert h
      decide
    · cases List.mem_singleton.mp hs
      revert h
      decide
  · obtain ⟨hundeclared, -⟩ :=
      hserved _ accepted_compiledTurn rfl compiledTurn List.mem_cons_self _ v v' step p h
    refine hundeclared ?_
    intro name x hx id hid
    cases List.mem_singleton.mp hx
    cases hid
    exact ⟨"x", List.mem_cons_self⟩

end CipherGraph

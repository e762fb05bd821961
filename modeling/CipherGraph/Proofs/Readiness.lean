import CipherGraph.Proofs.Availability
import CipherGraph.Proofs.Primitives
import CipherGraph.Proofs.TypeSafety
import CipherGraph.Proofs.Vaults

/-! # Compiled graphs are ready to run

An execution of a compiled graph only comes to operations that its scheme has, on operands encoded
as it needs them, and every value is at hand when it is read. Nothing else about the keys or the
inputs matters for that.
-/

namespace CipherGraph

/-- A combination of operands that the scheme leaves out. -/
def EvalError.isUnsupported : EvalError → Bool
  | .unsupported _ => true
  | _ => false

/-- Failures that a graph prepared for its scheme never shows: an operation that the scheme lacks,
an operand that was not encoded, or a value that is not there. -/
def ExecError.isUnprepared : ExecError → Bool
  | .unsupported .. => true
  | .arithmetic _ (.primitive e) => e.isUnsupported
  | .arithmetic _ (.unencodedOperand _ lhs rhs) => lhs.isCipher || rhs.isCipher
  | .absent (.nodeValue _) | .absent (.outputValue _) | .absent (.outputReleased _) => true
  | _ => false

theorem remote_isUnprepared :
    ExecError.Remote EvalError.isUnsupported ExecError.isUnprepared where
  released _ := rfl
  keyMismatch _ _ := rfl
  invalid _ := rfl
  atNode e _ := by cases e <;> rfl
  configuration _ := rfl
  constantSlots _ _ := rfl
  encodeOf _ _ := rfl
  plainNegation _ := rfl
  plainRotation _ := rfl
  rawLengths _ _ _ := rfl

theorem SchemeKind.evaluates_clear_of_raw {kind : SchemeKind} {op : Arithmetic} {a b : ValueClass}
    (h : kind.evaluates op a b = true) (hraw : a = .raw ∨ b = .raw) :
    (a.isCipher || b.isCipher) = false := by
  rcases hraw with rfl | rfl
  · cases b with
    | cipher => cases op <;> cases h
    | raw | plain => rfl
  · cases a with
    | cipher => cases op <;> cases h
    | raw | plain => rfl

section Visits

variable {S : Scheme} {m : Machine S} {t : Typing} {node : NodeId}

theorem Machine.avoids_visit_of_executes (hS : S.Reserves EvalError.isUnsupported)
    (hg : m.graph.Sound) (hwell : m.WellTyped t)
    (hheld : ∀ o ∈ m.graph.operands node, ∃ x, m.values.find? o = some x)
    (hexec : ∀ op, ⟨node, op⟩ ∈ m.graph.nodes →
      S.kind.executes op (m.graph.classes t node) = true) :
    Avoids ExecError.isUnprepared (m.visit node) := by
  intro v e v' h
  have hk : Spares EvalError.isUnsupported m.evaluator.requireKeys :=
    Evaluator.spares_requireKeys rfl
  rcases visit_error h with ⟨_, rfl⟩ | ⟨_, rfl⟩ | ⟨op, hop, hinput, heval⟩
  · rfl
  · rfl
  have hn := (Graph.op?_eq_ok hg.ascending).mp hop
  have hexec := hexec op hn
  rcases evaluate_cases (hg.arity _ hn) hinput hheld heval with ⟨a, rfl⟩ | ⟨c, rfl, hc⟩ |
    ⟨a, lhs, rhs, y, z, rfl, hoperands, hy, hz, ha⟩ |
    ⟨operand, y, harity, haggregate, -, -, hu⟩
  · cases hexec
  · exact avoids_constant remote_isUnprepared m c v e v' hc
  · have hclasses : m.graph.classes t node = [y.type, z.type] := by
      rw [Graph.classes, hoperands, List.filterMap_cons_some (hwell lhs y hy),
        List.filterMap_cons_some (hwell rhs z hz), List.filterMap_nil]
    rw [hclasses] at hexec
    have hevaluates : S.kind.evaluates a y.type z.type = true := hexec
    refine avoids_arithmetic remote_isUnprepared hS hk
      (fun _ _ _ _ _ => Evaluator.spares_requireRelin hk rfl) (fun hnot => ?_) rfl
      (SchemeKind.evaluates_clear_of_raw hevaluates) (fun _ => rfl) v e v' ha
    rw [hevaluates] at hnot
    cases hnot
  · exact avoids_unary remote_isUnprepared hS hk y (fun _ => rfl) (.inl ⟨harity, haggregate⟩) v e
      v' hu

end Visits

open Command

/-- An execution of a compiled graph in which no id was handed out twice, on live inputs of the
classes declared, never fails for an operation that the scheme lacks, for a raw operand of an
encrypted operation or for a value that is missing or released. -/
theorem execute_prepared {co : Compilation} (hco : co.Accepted) {cg : CompiledGraph}
    (hcg : cg ∈ co.graphs) (hv : cg.graph.hidden = []) {keys : Public (schemeOf cg.scheme).kind}
    {inputs : SchemeValuation (schemeOf cg.scheme)} (hinputs : Declared cg.graph inputs)
    {v v' : Vault} (hlive : inputs.Live v) {e : ExecError}
    (h : Runs (execute (schemeOf cg.scheme) keys cg.graph inputs) v (.error e) v') :
    e.isUnprepared = false := by
  obtain ⟨g, hg, o, _, _, hcompile⟩ := hco.compiled hcg
  obtain ⟨first, hstages⟩ := Graph.compile_ok hcompile
  have hreach := hstages.reachable hg
  have hsound := hreach.sound
  have htyped := Graph.typed_of_inferTypes hsound hstages.types
  rcases execute_failure h with ⟨_, rfl⟩ | ⟨_, rfl⟩ | ⟨start, order, left, m, out, hstart, ho,
    hpass, hout⟩ | ⟨node, m, v₁, hnode, hvisit⟩
  · rfl
  · rfl
  · have hgraph := hpass.frame.1.trans hstart.frame.1
    have hmlive : m.Live v' := (hstart.live hlive).passes (lasting cg.scheme)
      (hstart.frame.1 ▸ hsound) hpass
    obtain ⟨name, id, hentry, hnone⟩ := collect_not_released hmlive hout
    rw [hgraph] at hentry
    have hid := Graph.mem_ids_of_mem_nodes ((hreach.named hv).outputs name id hentry)
    obtain ⟨x, hx⟩ := hstart.outputs_held hsound hv ho hpass hentry hid
    rw [hnone] at hx
    cases hx
  · obtain ⟨start, before, after, left, hstart, ho, hpass⟩ := hnode
    have hwell := (Occurs.passed hstart ho hpass).wellTyped hsound htyped hinputs
    have hheld := Reaches.operands_held ⟨start, before, after, left, hstart, ho, hpass⟩ hsound hv
    have hgraph := hpass.frame.1.trans hstart.frame.1
    refine Machine.avoids_visit_of_executes (reserves remote_isUnprepared.toRemote rfl cg.scheme)
      (hgraph ▸ hsound) hwell (hgraph ▸ hheld) (fun op hn => ?_) v₁ e v' hvisit
    have hexec := hstages.executes hg hv (hgraph ▸ hn)
    rw [← hstages.scheme] at hexec
    rw [kind_schemeOf, hgraph]
    exact hexec

/-- Keys that come without evaluation keys. -/
def bareGateKeys : Public Scheme.bitwise.kind :=
  { gateKeys with
    evaluationKeys := none
    owned := by rintro _ ⟨⟩ }

/-- The difference then fails for want of keys, not for the way in which it was compiled. -/
theorem execute_prepared_gateDifference :
    ∃ e, Runs (execute .bitwise bareGateKeys gateDifference.graph sixAndNine) vaultOfSix (.error e)
        vaultOfSix ∧
      e.isUnprepared = false := by
  have hlive : sixAndNine.Live vaultOfSix := by
    intro name x hx
    rcases List.mem_cons.mp hx with heq | hx
    · cases heq
      rfl
    · cases List.mem_singleton.mp hx
      trivial
  have hrun : Runs (execute .bitwise bareGateKeys gateDifference.graph sixAndNine) vaultOfSix
      (.error (.absent (.primitive .missingEvaluationKeys (some 5)))) vaultOfSix := by
    unfold Runs
    cbv
  exact ⟨_, hrun, execute_prepared accepted_gateDifference List.mem_cons_self rfl
    declared_sixAndNine hlive hrun⟩

/-- The ids have come round: `0` was `x` and is now `y`, and `2` was the opposite of `q` and is now
the opposite of `x`. Since `2` and `3` both read `0` by its id, the value is freed between them. -/
def reusedInput : Graph :=
  { Graph.blank "a" 1 ⟨0⟩ with
    nodes :=
      [⟨0, .input "y" .raw⟩, ⟨1, .input "q" .raw⟩, ⟨2, .negate⟩, ⟨3, .negate⟩, ⟨4, .output "u"⟩,
        ⟨5, .output "v"⟩]
    hidden := [0, 2]
    edges :=
      [⟨⟨3, 0⟩, ⟨5, 0⟩, 0⟩, ⟨⟨2, 1⟩, ⟨4, 0⟩, 0⟩, ⟨⟨0, 1⟩, ⟨3, 0⟩, 0⟩, ⟨⟨0, 0⟩, ⟨2, 1⟩, 0⟩,
        ⟨⟨1, 0⟩, ⟨2, 0⟩, 0⟩]
    inputs := ⟨[("x", 0), ("q", 1), ("y", 0)]⟩
    outputs := ⟨[("u", 4), ("v", 5)]⟩ }

theorem assembled_reusedInput : reusedInput.Assembled := by
  have hcreate : Graph.create "a" 1 ⟨0⟩ = .ok (.blank "a" 1 ⟨0⟩) := rfl
  have h₁ := (Graph.Assembled.create hcreate).extend ⟨[0]⟩ (.input "x" .raw) [] rfl (by simp) rfl
  have h₂ := h₁.extend ⟨[1]⟩ (.input "q" .raw) [] rfl (by simp) rfl
  have h₃ := h₂.extend ⟨[2]⟩ .negate [1] rfl (by decide) trivial
  have h₄ := h₃.extend ⟨[2]⟩ .negate [0] rfl (by decide) trivial
  have h₅ := h₄.extend ⟨[0]⟩ (.input "y" .raw) [] rfl (by simp) rfl
  have h₆ := h₅.extend ⟨[3]⟩ .negate [0] rfl (by decide) trivial
  have h₇ := h₆.extend ⟨[4]⟩ (.output "u") [2] rfl (by decide) rfl
  exact h₇.extend ⟨[5]⟩ (.output "v") [3] rfl (by decide) rfl

def compiledReusedInput : CompiledGraph where
  scheme := .bitwise
  graph := reusedInput
  types := ⟨[(0, .raw), (1, .raw), (2, .raw), (3, .raw), (4, .raw), (5, .raw)]⟩
  signature :=
    ⟨1, ⟨[("x", ⟨.raw, 0, 0⟩), ("q", ⟨.raw, 0, 0⟩), ("y", ⟨.raw, 0, 0⟩)]⟩,
      ⟨[("u", .raw), ("v", .raw)]⟩⟩
  requirements := ⟨[], 0, false, 1⟩
  report := .unchanged

theorem accepted_reusedInput : Compilation.Accepted (.graph compiledReusedInput) := by
  have h : Runs (reusedInput.compile ⟨.bitwise, 0⟩) ⟨[6]⟩ (.ok compiledReusedInput) ⟨[6]⟩ := by
    unfold Runs
    with_unfolding_all rfl
  exact .graph assembled_reusedInput.reachable h

def threeFiveFour : SchemeValuation .bitwise :=
  ⟨[("x", .raw [(3 : UInt8)]), ("q", .raw [(5 : UInt8)]), ("y", .raw [(4 : UInt8)])]⟩

theorem declared_threeFiveFour : Declared reusedInput threeFiveFour := by
  intro name x hx id hid
  rcases List.mem_cons.mp hx with heq | hx
  · cases heq
    cases hid
    exact ⟨"y", List.mem_cons_self⟩
  rcases List.mem_cons.mp hx with heq | hx
  · cases heq
    cases hid
    exact ⟨"q", List.mem_cons_of_mem _ List.mem_cons_self⟩
  · cases List.mem_singleton.mp hx
    cases hid
    exact ⟨"y", List.mem_cons_self⟩

theorem live_threeFiveFour (v : Vault) : threeFiveFour.Live v := by
  intro name x hx
  rcases List.mem_cons.mp hx with heq | hx
  · cases heq
    trivial
  rcases List.mem_cons.mp hx with heq | hx
  · cases heq
    trivial
  · cases List.mem_singleton.mp hx
    trivial

/-- All inputs are bound, with values of the classes declared, and yet a value is missing. -/
theorem execute_reusedInput :
    Compilation.Accepted (.graph compiledReusedInput) ∧ Declared reusedInput threeFiveFour ∧
      (∀ name ∈ reusedInput.inputs.keys, threeFiveFour.contains name = true) ∧
        threeFiveFour.Live .empty ∧
          Runs (execute .bitwise gateKeys reusedInput threeFiveFour) .empty
            (.error (.absent (.nodeValue 0))) .empty := by
  refine ⟨accepted_reusedInput, declared_threeFiveFour, by decide, live_threeFiveFour .empty, ?_⟩
  unfold Runs
  with_unfolding_all rfl

end CipherGraph

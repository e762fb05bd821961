import CipherGraph.Proofs.Refusals
import CipherGraph.Proofs.TypeSafety

/-! # Compiling what has been compiled

A compiled graph is in normal form, and a graph in normal form is lowered without a change. Nothing
in it is dead either, so that compiling it again gives it back.
-/

namespace CipherGraph

open Lower

namespace SchemeKind

variable {kind : SchemeKind} {op : Arithmetic} {a b : ValueClass}

/-- Encrypted arithmetic in normal form reads nothing raw, and it reads a ciphertext first unless
the scheme takes a ciphertext from a plaintext or divides a plaintext by one. -/
theorem order_of_settles (h : kind.settles op a b = true) (hc : a = .cipher ∨ b = .cipher) :
    a ≠ .raw ∧ b ≠ .raw ∧ (a = .cipher ∨
      op = .sub ∧ kind.capabilities.plainMinusCipher = true ∨
      op = .div ∧ kind.capabilities.plainByCipherDivision = true) := by
  obtain ⟨hevaluates, horder⟩ := Bool.and_eq_true_iff.mp h
  cases a with
  | cipher =>
    cases b with
    | raw => cases hevaluates
    | plain | cipher => exact ⟨nofun, nofun, .inl rfl⟩
  | raw =>
    cases hc.resolve_left nofun
    cases hevaluates
  | plain =>
    cases hc.resolve_left nofun
    cases op with
    | add | mul => cases horder
    | sub => exact ⟨nofun, nofun, .inr (.inl ⟨rfl, hevaluates⟩)⟩
    | div => exact ⟨nofun, nofun, .inr (.inr ⟨rfl, hevaluates⟩)⟩

theorem division_of_settles (h : kind.settles .div a b = true) (hc : a = .cipher ∨ b = .cipher) :
    kind.capabilities.division = true := by
  cases kind with
  | ckks | bitwise => rfl
  | bfv =>
    obtain ⟨hevaluates, -⟩ := Bool.and_eq_true_iff.mp h
    rcases hc with rfl | rfl
    · cases b <;> cases hevaluates
    · cases a <;> cases hevaluates

theorem rotation_eq_true (kind : SchemeKind) : kind.capabilities.rotation = true := by
  cases kind <;> rfl

end SchemeKind

namespace Lower

variable {o : LoweringOptions} {s : LoweringState} {rank : NodeId → Nat} {n : Node}
  {id lhs rhs : NodeId} {op : Arithmetic} {a b : ValueClass}

theorem runs_again_settled (ha : a ≠ .raw) (hb : b ≠ .raw) :
    Runs (again op lhs rhs a b) s (.ok none) s := by
  unfold again
  rw [if_neg (by simp [ha, hb])]
  exact runs_pure.mpr ⟨rfl, rfl⟩

theorem runs_replacementOfEncrypted_settled (h : o.scheme.settles op a b = true)
    (hc : a = .cipher ∨ b = .cipher) :
    Runs (replacementOfEncrypted o id op lhs rhs a b) s (.ok none) s := by
  obtain ⟨ha, hb, horder⟩ := SchemeKind.order_of_settles h hc
  have hleave (k : NodeId) {d : ValueClass} (hd : d ≠ .raw) :
      Runs (encodeRaw o k d) s (.ok k) s := by
    unfold encodeRaw
    rw [if_neg hd]
    exact runs_pure.mpr ⟨rfl, rfl⟩
  rw [replacementOfEncrypted_eq, runs_bind_of_ok (hleave lhs ha), runs_bind_of_ok (hleave rhs hb)]
  unfold rewritten
  split
  · exact runs_again_settled ha hb
  · next hlhs =>
    rcases horder with rfl | ⟨rfl, hcapable⟩ | ⟨rfl, hcapable⟩
    · exact absurd rfl hlhs
    · dsimp only
      rw [if_pos hcapable]
      exact runs_again_settled ha hb
    · dsimp only
      rw [if_pos hcapable]
      exact runs_again_settled ha hb

theorem runs_replacementOfArithmetic_settled (hs : Legible rank s)
    (hn : ⟨id, .arithmetic op⟩ ∈ s.graph.nodes)
    (hnormal : o.scheme.normal (.arithmetic op) (s.graph.classes s.types id) = true) :
    Runs (replacementOfArithmetic o id op) s (.ok none) s := by
  obtain ⟨lhs, rhs, a, b, hoperands, ha, hb, hclasses⟩ :=
    Graph.exists_arithmetic_operands hs.sound hs.visible hs.typed hn
  rw [hclasses] at hnormal
  apply (runs_replacementOfArithmetic_iff hoperands ha hb).mpr
  by_cases hc : a = .cipher ∨ b = .cipher
  · rw [if_neg, if_pos (by simpa [ValueClass.isCipher] using hc)]
    · exact runs_replacementOfEncrypted_settled hnormal hc
    · intro hdiv
      simp only [Bool.and_eq_true, decide_eq_true_eq, Bool.not_eq_true'] at hdiv
      obtain ⟨⟨rfl, hincapable⟩, -⟩ := hdiv
      simp [SchemeKind.division_of_settles hnormal hc] at hincapable
  · have hclear : ¬ (a.isCipher || b.isCipher) = true := by simpa [ValueClass.isCipher] using hc
    rw [if_neg (by simp [hclear]), if_neg hclear]
    exact runs_pure.mpr ⟨rfl, rfl⟩

theorem runs_step_normal (hs : Legible rank s) (hn : n ∈ s.graph.nodes)
    (hnormal : o.scheme.normal n.op (s.graph.classes s.types n.id) = true) :
    Runs (step o n.id) s (.ok ()) s := by
  obtain ⟨id, op⟩ := n
  apply runs_step_of_none
  unfold replacement?
  rw [runs_get_bind, (Graph.op?_eq_ok hs.sound.ascending).mpr hn,
    runs_bind_of_ok (runs_ofGraph_ok _)]
  cases op with
  | aggregate => cases hnormal
  | arithmetic => exact runs_replacementOfArithmetic_settled hs hn hnormal
  | constant value =>
    dsimp only
    rw [if_pos (show o.scheme.holds value = true from hnormal)]
    exact runs_pure.mpr ⟨rfl, rfl⟩
  | rotateLeft | rotateRight =>
    have hid := Graph.mem_ids_of_mem_nodes hn
    dsimp only
    rw [runs_bind_of_ok (hs.runs_checkRotation hid o.scheme.rotation_eq_true _)]
    exact runs_pure.mpr ⟨rfl, rfl⟩
  | input | output | negate | encode => exact runs_pure.mpr ⟨rfl, rfl⟩

theorem runs_steps_normal {order : List NodeId} (hs : Legible rank s)
    (horder : ∀ id ∈ order, id ∈ s.graph.ids)
    (hnormal : ∀ n ∈ s.graph.nodes, o.scheme.normal n.op (s.graph.classes s.types n.id) = true) :
    Runs (order.forM (step o)) s (.ok ()) s := by
  induction order with
  | nil => exact runs_pure.mpr ⟨rfl, rfl⟩
  | cons id order ih =>
    obtain ⟨hid, hids⟩ := List.forall_mem_cons.mp horder
    obtain ⟨n, hn, rfl⟩ := List.mem_map.mp hid
    rw [List.forM, runs_bind_of_ok (runs_step_normal hs hn (hnormal n hn))]
    exact ih hids

end Lower

namespace Graph

variable {g : Graph} {o : CompileOptions} {c c' : IdCounters} {t : Typing} {cg : CompiledGraph}

theorem lower_normal (hg : g.Sound) (hv : g.hidden = []) (ht : g.inferTypes = .ok t)
    (lo : LoweringOptions)
    (hnormal : ∀ n ∈ g.nodes, lo.scheme.normal n.op (g.classes t n.id) = true) (c : IdCounters) :
    g.lower t lo c = (.ok (), g.loweringStart t c) := by
  obtain ⟨order, ho, -⟩ := Except.bind_eq_ok.mp ht
  obtain ⟨rank, hlegible⟩ := legible_start hg hv ht c
  have horder : ∀ id ∈ order, id ∈ (g.loweringStart t c).graph.ids :=
    fun id hid => (forwardOrder_perm ho).mem_iff.mp hid
  have hrun : Runs (everyNode lo) (g.loweringStart t c) (.ok ()) (g.loweringStart t c) := by
    unfold everyNode
    rw [runs_get_bind, show (g.loweringStart t c).graph.forwardOrder = .ok order from ho,
      runs_bind_of_ok (Lower.runs_ofGraph_ok order)]
    exact runs_steps_normal hlegible horder hnormal
  exact hrun

theorem runs_compile_normal (hg : g.Sound) (hv : g.hidden = []) (hvalid : g.validate = [])
    (ht : g.inferTypes = .ok t)
    (hnormal : ∀ n ∈ g.nodes, o.scheme.normal n.op (g.classes t n.id) = true)
    (hlive : g.removeDead.2 = g) {requirements : KeyRequirements}
    (hrequirements : g.requirements t = .ok requirements) {sig : Signature}
    (hsig : g.signature t o = .ok sig) :
    Runs (g.compile o) c (.ok ⟨o.scheme, g, t, sig, requirements, .unchanged⟩) c := by
  have hlower := lower_normal hg hv ht ⟨o.scheme, o.scaleBits⟩ hnormal c
  have hlowered : Runs (g.lowered t ⟨o.scheme, o.scaleBits⟩) c (.ok (g, .unchanged)) c :=
    runs_lowered_iff.mpr ⟨by rw [hlower]; rfl, by rw [hlower]; rfl⟩
  unfold compile
  simp only [hvalid]
  rw [runs_bind_of_ok (runs_compilingOfGraph.mpr ⟨ht, rfl⟩), runs_bind_of_ok hlowered]
  dsimp only
  rw [hlive, runs_bind_of_ok (runs_compilingOfGraph.mpr ⟨ht, rfl⟩),
    runs_bind_of_ok (runs_compilingOfGraph.mpr ⟨hrequirements, rfl⟩),
    runs_bind_of_ok (runs_compilingOfGraph.mpr ⟨hsig, rfl⟩)]
  exact runs_pure.mpr ⟨rfl, rfl⟩

theorem Stages.validate_eq_nil {first : Typing} (h : g.Stages o c first cg) (hg : g.Reachable)
    (hv : cg.graph.hidden = []) : cg.graph.validate = [] := by
  have hsound := (h.reachable hg).sound
  have hvisible : g.hidden = [] := by
    rw [h.graph] at hv
    exact (path_lower g first _ c).hidden_eq_nil hv
  obtain ⟨houtputs, hlengths, -⟩ := (validate_eq_nil_iff hg.sound hvisible).mp h.valid
  refine (validate_eq_nil_iff hsound hv).mpr ⟨?_, fun id value hn => ?_, cg.types, h.types, ?_⟩
  · rw [h.outputs_eq]
    exact houtputs
  · rw [h.width_eq]
    exact hlengths id value (h.original hg rfl hn)
  · intro id scaleBits level hn k hk
    have hraw := SchemeKind.normal_encode.mp (h.normal hg hv hn)
    obtain ⟨d, hd⟩ :=
      (typed_of_inferTypes hsound h.types).found (hsound.mem_ids_of_mem_operands hv hk)
    rw [hd, hraw d (List.mem_filterMap.mpr ⟨k, hk, hd⟩)]

/-- A compiled graph is in normal form: encrypted arithmetic reads nothing raw, and it reads a
ciphertext first unless the scheme takes the other order. The graph is valid, and compiling it
again changes nothing and draws no id. -/
theorem compile_settled (hg : g.Reachable) (h : Runs (g.compile o) c (.ok cg) c')
    (hv : cg.graph.hidden = []) :
    (∀ id op, ⟨id, .arithmetic op⟩ ∈ cg.graph.nodes → ∃ lhs rhs a b,
      cg.graph.operands id = [lhs, rhs] ∧ cg.types.find? lhs = some a ∧
      cg.types.find? rhs = some b ∧ (a = .cipher ∨ b = .cipher → a ≠ .raw ∧ b ≠ .raw ∧
        (a = .cipher ∨ op = .sub ∧ o.scheme.capabilities.plainMinusCipher = true ∨
          op = .div ∧ o.scheme.capabilities.plainByCipherDivision = true))) ∧
    cg.graph.validate = [] ∧
    ∀ c'', Runs (cg.graph.compile o) c'' (.ok { cg with report := .unchanged }) c'' := by
  obtain ⟨first, hstages⟩ := compile_ok h
  have hsound := (hstages.reachable hg).sound
  have htyped := typed_of_inferTypes hsound hstages.types
  have hvalid := hstages.validate_eq_nil hg hv
  refine ⟨fun id op hn => ?_, hvalid, fun c'' => ?_⟩
  · obtain ⟨lhs, rhs, a, b, hoperands, ha, hb, hclasses⟩ :=
      exists_arithmetic_operands hsound hv (fun _ => htyped.found) hn
    have hsettled := hstages.normal hg hv hn
    rw [hclasses] at hsettled
    exact ⟨lhs, rhs, a, b, hoperands, ha, hb, SchemeKind.order_of_settles hsettled⟩
  · have hlive : cg.graph.removeDead.2 = cg.graph := by
      rw [hstages.graph, removeDead_removeDead]
    have hagain := runs_compile_normal (c := c'') hsound hv hvalid hstages.types
      (fun n hn => hstages.normal hg hv hn) hlive hstages.requirements hstages.signature
    rw [← hstages.scheme] at hagain
    exact hagain

/-- The difference that was compiled for gates stays as it is. -/
theorem compile_settled_gateDifference : gateDifference.graph.validate = [] ∧
    ∀ c, Runs (gateDifference.graph.compile ⟨.bitwise, 0⟩) c
      (.ok { gateDifference with report := .unchanged }) c :=
  (compile_settled built_mixedDifference.reachable compile_gateDifference rfl).2

end Graph

end CipherGraph

import CipherGraph.Compile.Requirements
import CipherGraph.Proofs.Typing

/-! # Key requirements

What the analysis of a typed graph records, read off the graph.
-/

namespace CipherGraph.Graph

variable {g : Graph} {t : Typing} {id : NodeId} {op : Arithmetic}

/-- A node that computes with ciphertexts only. -/
structure Combines (g : Graph) (t : Typing) (op : Arithmetic) (id : NodeId) : Prop where
  node : ⟨id, .arithmetic op⟩ ∈ g.nodes
  encrypted : ∀ o ∈ g.operands id, t.find? o = some .cipher

theorem Combines.type_eq (h : g.Combines t op id) (hg : g.Sound) (ht : g.Typed t) :
    t.find? id = some .cipher := by
  obtain ⟨lhs, rhs, hoperands⟩ := List.length_eq_two.mp (hg.arity _ h.node)
  have hmap : (g.operands id).map t.find? = [ValueClass.cipher, .cipher].map some := by
    have henc := h.encrypted
    dsimp only at hoperands
    rw [hoperands] at henc ⊢
    simp [henc lhs, henc rhs]
  exact ht.find?_eq hg h.node hmap

theorem mapM_of_eq_ok {ids : List NodeId} {classes : List ValueClass} :
    ids.mapM t.of = .ok classes ↔ ids.map t.find? = classes.map some := by
  induction ids generalizing classes with
  | nil =>
    rw [List.mapM_nil, Except.pure_eq_ok, List.map_nil, eq_comm (a := ([] : List (Option _))),
      List.map_eq_nil_iff]
    exact eq_comm
  | cons id ids ih =>
    rw [List.mapM_cons, Except.bind_eq_ok]
    constructor
    · rintro ⟨c, hc, h⟩
      obtain ⟨cs, hcs, h⟩ := Except.bind_eq_ok.mp h
      cases h
      simp [Typing.of_eq_ok.mp hc, ih.mp hcs]
    · intro h
      cases classes with
      | nil => cases h
      | cons c cs =>
        obtain ⟨hc, hcs⟩ := List.cons_eq_cons.mp h
        exact ⟨c, Typing.of_eq_ok.mpr hc, Except.bind_eq_ok.mpr ⟨cs, ih.mpr hcs, rfl⟩⟩

theorem combines_iff (hg : g.Sound) {o : Operation} (hop : g.op? id = .ok o)
    {classes : List ValueClass} (hclasses : (g.operands id).map t.find? = classes.map some) :
    g.Combines t op id ↔ o = .arithmetic op ∧ classes.all (·.isCipher) = true := by
  have hall : (∀ k ∈ g.operands id, t.find? k = some .cipher) ↔
      classes.all (·.isCipher) = true := by
    have hmap : (∀ c ∈ (g.operands id).map t.find?, c = some .cipher) ↔
        ∀ c ∈ classes.map some, c = some ValueClass.cipher := by rw [hclasses]
    simpa [ValueClass.isCipher] using hmap
  constructor
  · rintro ⟨hnode, henc⟩
    cases hop.symm.trans ((op?_eq_ok hg.ascending).mpr hnode)
    exact ⟨rfl, hall.mp henc⟩
  · rintro ⟨rfl, hc⟩
    exact ⟨(op?_eq_ok hg.ascending).mp hop, hall.mpr hc⟩

theorem isMultiplication_iff {op : Operation} :
    isMultiplication op = true ↔ op = .arithmetic .mul := by
  unfold isMultiplication
  split <;> simp_all

theorem analyzeNode_relinearize (hg : g.Sound) (ht : g.Typed t) {a a' : Analysis}
    (h : g.analyzeNode t a id = .ok a') :
    a'.requirements.relinearize = true ↔
      a.requirements.relinearize = true ∨ g.Combines t .mul id := by
  unfold analyzeNode at h
  obtain ⟨c, hc, h⟩ := Except.bind_eq_ok.mp h
  obtain ⟨op, hop, h⟩ := Except.bind_eq_ok.mp h
  have hc := Typing.of_eq_ok.mp hc
  dsimp only at h
  split at h
  · -- Only encrypted nodes count, and a product of ciphertexts is one.
    next hclear =>
    cases h
    refine (or_iff_left fun hmul => ?_).symm
    cases hc.symm.trans (hmul.type_eq hg ht)
    cases hclear
  · split at h
    · obtain ⟨classes, hclasses, h⟩ := Except.bind_eq_ok.mp h
      cases h
      rw [combines_iff hg hop (mapM_of_eq_ok.mp hclasses)]
      simp only [Bool.or_eq_true, Bool.and_eq_true, isMultiplication_iff, and_comm]
    · next hproduct =>
      have hmul : ¬ g.Combines t .mul id := fun hmul => by
        cases hop.symm.trans ((op?_eq_ok hg.ascending).mpr hmul.node)
        exact hproduct rfl
      refine Iff.trans ?_ (or_iff_left hmul).symm
      split at h
      · split at h <;> cases h <;> rfl
      · cases h
        rfl

theorem analyzeNode_ok (ht : g.Typed t) (a : Analysis) (hid : id ∈ g.ids) :
    ∃ a', g.analyzeNode t a id = .ok a' := by
  obtain ⟨type, htype, hof⟩ := ht id hid
  obtain ⟨op, hop, hof⟩ := Except.bind_eq_ok.mp hof
  unfold analyzeNode
  rw [Typing.of_eq_ok.mpr htype, hop]
  dsimp only [bind, Except.bind]
  split
  · exact ⟨_, rfl⟩
  · split
    · next hproduct =>
      have hjoin : t.joinAll .raw (g.operands id) = .ok type := by
        cases op with
        | arithmetic => exact hof
        | _ => cases hproduct
      obtain ⟨classes, hclasses, -⟩ := Typing.joinAll_eq_ok.mp hjoin
      rw [mapM_of_eq_ok.mpr hclasses]
      exact ⟨_, rfl⟩
    · split
      · split <;> exact ⟨_, rfl⟩
      · exact ⟨_, rfl⟩

theorem analysis_ok (ht : g.Typed t) {order : List NodeId} (hids : ∀ id ∈ order, id ∈ g.ids)
    (a : Analysis) : ∃ a', order.foldlM (g.analyzeNode t) a = .ok a' := by
  induction order generalizing a with
  | nil => exact ⟨a, rfl⟩
  | cons id order ih =>
    obtain ⟨hid, hids⟩ := List.forall_mem_cons.mp hids
    obtain ⟨a₁, ha₁⟩ := analyzeNode_ok ht a hid
    obtain ⟨a', ha'⟩ := ih hids a₁
    rw [List.foldlM_cons, ha₁]
    exact ⟨a', ha'⟩

theorem requirements_ok (hg : g.Sound) (ht : g.inferTypes = .ok t) :
    ∃ r, g.requirements t = .ok r := by
  obtain ⟨order, ho, -⟩ := Except.bind_eq_ok.mp ht
  obtain ⟨a, ha⟩ := analysis_ok (typed_of_inferTypes hg ht)
    (fun id hid => (forwardOrder_perm ho).mem_iff.mp hid)
    ⟨{ KeyRequirements.none with width := g.width }, ∅⟩
  exact ⟨a.requirements, Except.bind_eq_ok.mpr ⟨order, ho, Except.bind_eq_ok.mpr ⟨a, ha, rfl⟩⟩⟩

/-- What is recorded in the end is what some node calls for, if every node records just its own. -/
theorem requirements_iff {P : KeyRequirements → Prop} {Q : NodeId → Prop}
    (hstep : ∀ a a' id, g.analyzeNode t a id = .ok a' →
      (P a'.requirements ↔ P a.requirements ∨ Q id))
    (hstart : ¬ P { KeyRequirements.none with width := g.width }) (hids : ∀ id, Q id → id ∈ g.ids)
    {r : KeyRequirements} (h : g.requirements t = .ok r) : P r ↔ ∃ id, Q id := by
  have hfold {order : List NodeId} {a a' : Analysis}
      (h : order.foldlM (g.analyzeNode t) a = .ok a') :
      P a'.requirements ↔ P a.requirements ∨ ∃ id ∈ order, Q id := by
    induction order generalizing a with
    | nil =>
      cases h
      simp
    | cons id order ih =>
      rw [List.foldlM_cons] at h
      obtain ⟨a₁, h₁, hrest⟩ := Except.bind_eq_ok.mp h
      rw [ih hrest, hstep a a₁ id h₁, or_assoc, List.exists_mem_cons_iff]
  unfold requirements at h
  obtain ⟨order, ho, h⟩ := Except.bind_eq_ok.mp h
  obtain ⟨a, ha, h⟩ := Except.bind_eq_ok.mp h
  cases h
  rw [hfold ha, or_iff_right hstart]
  exact exists_congr fun id => and_iff_right_of_imp fun hid =>
    (forwardOrder_perm ho).mem_iff.mpr (hids id hid)

theorem requirements_relinearize (hg : g.Sound) (ht : g.inferTypes = .ok t)
    {r : KeyRequirements} (h : g.requirements t = .ok r) :
    r.relinearize = true ↔ ∃ id, g.Combines t .mul id :=
  requirements_iff (P := fun r => r.relinearize = true)
    (fun _ _ _ => analyzeNode_relinearize hg (typed_of_inferTypes hg ht))
    (by simp [KeyRequirements.none]) (fun _ hid => List.mem_map_of_mem hid.node) h

/-- A node that turns a ciphertext by a step that is not a whole turn. -/
structure Rotates (g : Graph) (t : Typing) (step : Int) (id : NodeId) : Prop where
  node : ∃ op, ⟨id, op⟩ ∈ g.nodes ∧ g.stepOf? op = some step
  encrypted : t.find? id = some .cipher
  proper : step ≠ 0

theorem analyzeNode_rotationSteps (hg : g.Sound) {a a' : Analysis}
    (h : g.analyzeNode t a id = .ok a') (step : Int) :
    step ∈ a'.requirements.rotationSteps ↔
      step ∈ a.requirements.rotationSteps ∨ g.Rotates t step id := by
  unfold analyzeNode at h
  obtain ⟨c, hc, h⟩ := Except.bind_eq_ok.mp h
  obtain ⟨op, hop, h⟩ := Except.bind_eq_ok.mp h
  have hc := Typing.of_eq_ok.mp hc
  have hrotates : g.Rotates t step id ↔ c = .cipher ∧ g.stepOf? op = some step ∧ step ≠ 0 := by
    constructor
    · rintro ⟨⟨op', hn, hstep⟩, hcipher, hproper⟩
      cases hop.symm.trans ((op?_eq_ok hg.ascending).mpr hn)
      exact ⟨Option.some.inj (hc.symm.trans hcipher), hstep, hproper⟩
    · rintro ⟨rfl, hstep, hproper⟩
      exact ⟨⟨op, (op?_eq_ok hg.ascending).mp hop, hstep⟩, hc, hproper⟩
  rw [hrotates]
  dsimp only at h
  split at h
  · next hclear =>
    cases h
    have hclear : c ≠ .cipher := by
      rintro rfl
      cases hclear
    simp [hclear]
  · next hcipher =>
    have hcipher : c = .cipher := by simpa [ValueClass.isCipher] using hcipher
    split at h
    · next hproduct =>
      obtain ⟨_, -, h⟩ := Except.bind_eq_ok.mp h
      cases h
      have hstep : g.stepOf? op = none := by
        unfold isProduct at hproduct
        split at hproduct
        · rfl
        · rfl
        · cases hproduct
      simp [hstep]
    · split at h
      · next made hstep =>
        split at h
        · next hzero =>
          cases h
          simp only [hcipher, hstep, hzero, true_and, Option.some.injEq]
          exact (or_iff_left fun ⟨heq, hne⟩ => hne heq.symm).symm
        · next hne =>
          cases h
          simp only [Ascending.mem_insert, hcipher, hstep, true_and, Option.some.injEq]
          constructor
          · rintro (rfl | hmem)
            · exact .inr ⟨rfl, hne⟩
            · exact .inl hmem
          · rintro (hmem | ⟨rfl, -⟩)
            · exact .inr hmem
            · exact .inl rfl
      · next hstep =>
        cases h
        simp [hstep]

/-- Rotation keys are asked for by exactly the rotations of ciphertexts, whole turns apart. -/
theorem requirements_rotationSteps (hg : g.Sound) {r : KeyRequirements}
    (h : g.requirements t = .ok r) (step : Int) :
    step ∈ r.rotationSteps ↔ ∃ id, g.Rotates t step id :=
  requirements_iff (P := fun r => step ∈ r.rotationSteps)
    (fun _ _ _ h => analyzeNode_rotationSteps hg h step) (by simp [KeyRequirements.none])
    (fun _ ⟨⟨_, hn, _⟩, _, _⟩ => List.mem_map_of_mem hn) h

theorem analyzeNode_width {a a' : Analysis} (h : g.analyzeNode t a id = .ok a') :
    a'.requirements.width = a.requirements.width := by
  unfold analyzeNode at h
  obtain ⟨_, -, h⟩ := Except.bind_eq_ok.mp h
  obtain ⟨_, -, h⟩ := Except.bind_eq_ok.mp h
  dsimp only at h
  split at h
  · cases h
    rfl
  · split at h
    · obtain ⟨_, -, h⟩ := Except.bind_eq_ok.mp h
      cases h
      rfl
    · split at h
      · split at h <;> cases h <;> rfl
      · cases h
        rfl

theorem requirements_width {r : KeyRequirements} (h : g.requirements t = .ok r) :
    r.width = g.width := by
  have hiff := requirements_iff (P := fun r => r.width ≠ g.width) (Q := fun _ => False)
    (fun _ _ _ h => by rw [analyzeNode_width h, or_false]) (fun hne => hne rfl)
    (fun _ hfalse => hfalse.elim) h
  simpa using hiff

end CipherGraph.Graph

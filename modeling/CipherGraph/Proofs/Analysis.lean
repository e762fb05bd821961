import CipherGraph.Proofs.Depths
import CipherGraph.Proofs.Pooling
import CipherGraph.Proofs.Records
import CipherGraph.Proofs.Validity

/-! # What the analysis finds

The analysis looks at the nodes one after the other and never back. In a graph that hides no node
it still finds the largest number of encrypted products and quotients on any path, since the
operands of a node come before it. The rotations and products that call for keys it finds in any
graph.
-/

namespace CipherGraph.Graph

variable {g : Graph} {t : Typing} {id : NodeId} {r : KeyRequirements}

theorem Ordered.operands_mem_before {before after : List NodeId}
    (h : g.Ordered (before ++ id :: after)) {o : NodeId} (ho : o ∈ g.operands id)
    (hmem : o ∈ before ++ id :: after) : o ∈ before := by
  cases h.of_append with
  | cons hfirst _ => exact (List.mem_append.mp hmem).resolve_right (hfirst o ho)

/-- What is reckoned along the order is the depth, since operands come first. -/
theorem Reckons.isDepth {limit : Nat} {D : NodeId → Nat} (hD : g.Reckons t limit D) (hg : g.Sound)
    (hv : g.hidden = []) {order : List NodeId} (ho : g.forwardOrder = .ok order)
    (hid : id ∈ g.ids) : g.IsDepth t id (D id) := by
  obtain ⟨rank, hrank⟩ := (hg.forwardOrder_ok_iff hv).mp ⟨order, ho⟩
  have hmem {k : NodeId} : k ∈ order ↔ k ∈ g.ids := (forwardOrder_perm ho).mem_iff
  induction hn : rank id using Nat.strongRecOn generalizing id with
  | ind n ih =>
    subst hn
    obtain ⟨before, after, rfl⟩ := List.append_of_mem (hmem.mpr hid)
    have hreckoned : deepestOf (reckoned D before) (g.operands id) =
        deepestOf D (g.operands id) := deepestOf_congr fun o hoperand => by
      have hin := hg.mem_ids_of_mem_operands hv hoperand
      exact reckoned_of_mem ((hg.forwardOrder_ordered hv ho).operands_mem_before hoperand
        (hmem.mpr hin))
    rw [(hD before id after ho).2, hreckoned]
    exact isDepth_of_operands fun o hoperand =>
      ih (rank o) (hrank id o hoperand) (hg.mem_ids_of_mem_operands hv hoperand) rfl

theorem OperandPath.countP_eq_zero (hg : g.Sound) (hv : g.hidden = []) {path : List NodeId}
    (h : g.OperandPath id path) (hid : id ∉ g.ids) : path.countP (g.spends t) = 0 := by
  cases h with
  | single =>
    have hnode : g.node? id = none := by
      rw [Option.eq_none_iff_forall_not_mem]
      intro n hn
      obtain ⟨hmem, rfl⟩ := (node?_eq_some hg.ascending).mp hn
      exact hid (mem_ids_of_mem_nodes hmem)
    simp [spends, hnode]
  | cons ho => exact absurd (hg.mem_ids_of_operand hv ho) hid

theorem requirements_depth (hg : g.Sound) (hv : g.hidden = [])
    (h : g.requirements t = .ok r) :
    IsGreatest {n | ∃ id path, g.OperandPath id path ∧ path.countP (g.spends t) = n} r.depth := by
  obtain ⟨D, hD, order, ho, hdepth⟩ := exists_depths hg h
  have hmem {k : NodeId} : k ∈ order ↔ k ∈ g.ids := (forwardOrder_perm ho).mem_iff
  have hbound {id : NodeId} {path : List NodeId} (hpath : g.OperandPath id path) :
      path.countP (g.spends t) ≤ r.depth := by
    by_cases hid : id ∈ g.ids
    · rw [hdepth]
      exact ((hD.isDepth hg hv ho hid).2 ⟨path, hpath, rfl⟩).trans
        (le_deepestOf (hmem.mpr hid))
    · rw [hpath.countP_eq_zero hg hv hid]
      exact Nat.zero_le _
  refine ⟨?_, ?_⟩
  · by_cases hzero : r.depth = 0
    · have hle := hbound (.single 0)
      exact ⟨0, [0], .single 0, by omega⟩
    · obtain ⟨id, hid, hdeepest⟩ := exists_deepestOf D (hdepth ▸ hzero)
      obtain ⟨path, hpath, hcount⟩ := (hD.isDepth hg hv ho (hmem.mp hid)).1
      exact ⟨id, path, hpath, hcount.trans (hdeepest.symm.trans hdepth.symm)⟩
  · rintro n ⟨id, path, hpath, rfl⟩
    exact hbound hpath

theorem signed32_eq {n : Int} (hlo : -2 ^ 31 < n) (hhi : n < 2 ^ 31) : signed32 n = n := by
  rw [signed32, UInt32.size]
  exact Int.bmod_eq_of_le (by omega) (by omega)

/-- A step is what is left of it after whole turns, as long as that is below `2 ^ 31`. -/
theorem rotationStep_of_lt {steps width : Nat} (hpos : 0 < width) (hlt : steps % width < 2 ^ 31)
    (left : Bool) :
    rotationStep steps width left =
      if left then ((steps % width : Nat) : Int) else -((steps % width : Nat) : Int) := by
  have hmax : max width 1 = width := Nat.max_eq_left hpos
  have hstep : signed32 ((steps % width : Nat) : Int) = ((steps % width : Nat) : Int) :=
    signed32_eq (by omega) (by omega)
  have hback : signed32 (-((steps % width : Nat) : Int)) = -((steps % width : Nat) : Int) :=
    signed32_eq (by omega) (by omega)
  rw [rotationStep, hmax]
  simp only [hstep, hback]

theorem rotationStep_eq {width : Nat} (hpos : 0 < width) (hle : width ≤ 2 ^ 31) (steps : Nat)
    (left : Bool) :
    rotationStep steps width left =
      if left then ((steps % width : Nat) : Int) else -((steps % width : Nat) : Int) :=
  rotationStep_of_lt hpos (Nat.lt_of_lt_of_le (Nat.mod_lt _ hpos) hle) left

theorem stepOf?_eq_some {op : Operation} {step : Int} : g.stepOf? op = some step ↔
    ∃ steps, op = .rotateLeft steps ∧ step = rotationStep steps g.width true ∨
      op = .rotateRight steps ∧ step = rotationStep steps g.width false := by
  cases op <;> simp [stepOf?, eq_comm]

/-- A ciphertext is turned by this step, which is not a whole turn. -/
theorem rotates_iff (hpos : 0 < g.width) (hle : g.width ≤ 2 ^ 31) {step : Int} :
    g.Rotates t step id ↔ step ≠ 0 ∧ t.find? id = some .cipher ∧
      ∃ steps : Nat,
        ⟨id, .rotateLeft steps⟩ ∈ g.nodes ∧ step = ((steps % g.width : Nat) : Int) ∨
          ⟨id, .rotateRight steps⟩ ∈ g.nodes ∧ step = -((steps % g.width : Nat) : Int) := by
  have hleft (steps : Nat) :
      rotationStep steps g.width true = ((steps % g.width : Nat) : Int) := by
    rw [rotationStep_eq hpos hle, if_pos rfl]
  have hright (steps : Nat) :
      rotationStep steps g.width false = -((steps % g.width : Nat) : Int) := by
    rw [rotationStep_eq hpos hle, if_neg Bool.false_ne_true]
  constructor
  · rintro ⟨⟨op, hn, hop⟩, hcipher, hproper⟩
    obtain ⟨steps, ⟨rfl, hstep⟩ | ⟨rfl, hstep⟩⟩ := stepOf?_eq_some.mp hop
    · exact ⟨hproper, hcipher, steps, .inl ⟨hn, hstep.trans (hleft steps)⟩⟩
    · exact ⟨hproper, hcipher, steps, .inr ⟨hn, hstep.trans (hright steps)⟩⟩
  · rintro ⟨hproper, hcipher, steps, ⟨hn, hstep⟩ | ⟨hn, hstep⟩⟩
    · exact ⟨⟨_, hn, stepOf?_eq_some.mpr ⟨steps, .inl ⟨rfl, hstep.trans (hleft steps).symm⟩⟩⟩,
        hcipher, hproper⟩
    · exact ⟨⟨_, hn, stepOf?_eq_some.mpr ⟨steps, .inr ⟨rfl, hstep.trans (hright steps).symm⟩⟩⟩,
        hcipher, hproper⟩

theorem combines_iff_operands (hg : g.Sound) {op : Arithmetic} :
    g.Combines t op id ↔ ⟨id, .arithmetic op⟩ ∈ g.nodes ∧
      ∃ lhs rhs, g.operands id = [lhs, rhs] ∧
        t.find? lhs = some .cipher ∧ t.find? rhs = some .cipher := by
  constructor
  · rintro ⟨hn, hall⟩
    obtain ⟨lhs, rhs, hoperands⟩ := List.length_eq_two.mp (hg.arity _ hn)
    exact ⟨hn, lhs, rhs, hoperands, hall lhs (by simp [hoperands]), hall rhs (by simp [hoperands])⟩
  · rintro ⟨hn, lhs, rhs, hoperands, hlhs, hrhs⟩
    exact ⟨hn, by simp [hoperands, hlhs, hrhs]⟩

theorem analyzeNode_ascends {a a' : Analysis} (h : g.analyzeNode t a id = .ok a')
    (ha : a.requirements.Ascends) : a'.requirements.Ascends := by
  unfold analyzeNode at h
  obtain ⟨_, -, h⟩ := Except.bind_eq_ok.mp h
  obtain ⟨_, -, h⟩ := Except.bind_eq_ok.mp h
  dsimp only at h
  split at h
  · cases h
    exact ha
  · split at h
    · obtain ⟨_, -, h⟩ := Except.bind_eq_ok.mp h
      cases h
      exact ha
    · split at h
      · split at h
        · cases h
          exact ha
        · cases h
          exact Ascending.pairwise_insert ha
      · cases h
        exact ha

theorem requirements_ascends (h : g.requirements t = .ok r) : r.Ascends := by
  have hfold {order : List NodeId} {a a' : Analysis} (ha : a.requirements.Ascends)
      (h : order.foldlM (g.analyzeNode t) a = .ok a') : a'.requirements.Ascends := by
    induction order generalizing a with
    | nil =>
      cases h
      exact ha
    | cons id order ih =>
      rw [List.foldlM_cons] at h
      obtain ⟨a₁, h₁, hrest⟩ := Except.bind_eq_ok.mp h
      exact ih (analyzeNode_ascends h₁ ha) hrest
  unfold requirements at h
  obtain ⟨order, ho, h⟩ := Except.bind_eq_ok.mp h
  obtain ⟨a, ha, h⟩ := Except.bind_eq_ok.mp h
  cases h
  exact hfold (a := ⟨{ KeyRequirements.none with width := g.width }, ∅⟩) List.Pairwise.nil ha

end CipherGraph.Graph

import CipherGraph.Proofs.Locality

/-! # Prompt release

An execution may release each cell as soon as nobody holds it, between two visits, or keep all of
them to its end. Its result is the same, and so is the heap once the cells are given up that nobody
holds then.
-/

namespace CipherGraph

open Vault (Alike)

section Releasing

variable {S : Scheme}

def Machine.cells (m : Machine S) : List (Nat × Nat) := m.values.values.flatMap Value.cells

/-- Visits nodes in order. After each visit, the cells are released that neither the machine nor
anyone else holds. -/
def Machine.visitAllReleasing (others : List (Nat × Nat)) (m : Machine S) (left : Remaining) :
    List NodeId → StateM Vault (Machine S × Except ExecError Unit)
  | [] => return (m, .ok ())
  | node :: rest => do
    match ← (m.visit node).run with
    | .error e => return (m, .error e)
    | .ok m =>
      let (m, left) := m.freeOperands left (m.graph.operands node)
      modify (·.sweep (others ++ m.cells))
      m.visitAllReleasing others left rest

def Machine.runReleasing (others : List (Nat × Nat)) (m : Machine S) :
    StateM Vault (Machine S × Except ExecError (SchemeValuation S)) := do
  match m.graph.forwardOrder with
  | .error e => return (m, .error (.graph e))
  | .ok order =>
    match ← m.visitAllReleasing others m.graph.useCounts order with
    | (m, .error e) => return (m, .error e)
    | (m, .ok ()) =>
      match m.outputs (← get) with
      | (found, .ok ()) => return (m, .ok found)
      | (_, .error e) => return (m, .error e)

/-- Runs a graph on named inputs while others hold some cells. -/
def executeReleasing (others : List (Nat × Nat)) (keys : Public S.kind) (g : Graph)
    (inputs : SchemeValuation S) : Exec (SchemeValuation S) := do
  let m ← liftM (Machine.create g keys)
  match m.bindAll inputs.entries with
  | (_, .error e) => throw e
  | (m, .ok ()) =>
    let (_, result) ← m.runReleasing others
    liftM result

end Releasing

namespace Machine

variable {K : Set (Nat × Nat)} {m m' : Machine Scheme.bitwise} {node : NodeId} {left : Remaining}
  {others : List (Nat × Nat)} {v w v' w' : Vault}

theorem place_mem_cells {id : NodeId} {c : Gates.Ciphertext}
    (h : m.values.find? id = some (.cipher c)) : Gates.place c ∈ m.cells :=
  List.mem_flatMap.mpr ⟨_, List.mem_map_of_mem (OrderedMap.mem_of_lookup h),
    List.mem_singleton_self _⟩

/-- Both vaults hold what the machine and the others need. -/
def Abreast (others : List (Nat × Nat)) (m : Machine Scheme.bitwise) (v w : Vault) : Prop :=
  ∃ K, Alike K v w ∧ cellDiscipline.Accepts K m ∧ ∀ c ∈ others, c ∈ K

theorem Abreast.trims (h : Abreast others m v w) (ht : Trims m m') : Abreast others m' v w := by
  obtain ⟨K, hvw, hm, hothers⟩ := h
  exact ⟨K, hvw, hm.trims ht, hothers⟩

theorem Abreast.visit (h : Abreast others m v w) (node : NodeId) :
    ∃ r v' w', Runs (m.visit node) v r v' ∧ Runs (m.visit node) w r w' ∧
      Abreast others m v' w' ∧ (∀ m', r = .ok m' → Abreast others m' v' w') ∧
      v.Adds v' ∧ Spares ExecError.isReleased r := by
  obtain ⟨K, hvw, hm, hothers⟩ := h
  obtain ⟨r, L, v', w', hKL, hv, hw, hvw', hadds, hspares, hr⟩ :=
    Discipline.holds_visit hm node v w hvw
  have hkept : ∀ c ∈ others, c ∈ L := fun c hc => hKL (hothers c hc)
  exact ⟨r, v', w', hv, hw, ⟨L, hvw', hm.mono hKL, hkept⟩,
    fun m' hm' => ⟨L, hvw', hr m' hm', hkept⟩, hadds, hspares⟩

theorem Abreast.sweep (h : Abreast others m v w) :
    Abreast others m v (w.sweep (others ++ m.cells)) := by
  obtain ⟨K, hvw, hm, hothers⟩ := h
  refine ⟨{c ∈ K | c ∈ others ++ m.cells}, hvw.sweep (fun c hc => hc.1) (fun c hc => hc.2), ?_, ?_⟩
  · rintro id _ hx c rfl
    exact ⟨hm id _ hx c rfl, List.mem_append_right _ (place_mem_cells hx)⟩
  · exact fun c hc => ⟨hothers c hc, List.mem_append_left _ hc⟩

theorem visitAllReleasing_of_visit_ok {rest : List NodeId}
    (h : Runs (m.visit node) w (.ok m') w') :
    (m.visitAllReleasing others left (node :: rest)).run w =
      ((m'.freeOperands left (m'.graph.operands node)).1.visitAllReleasing others
        (m'.freeOperands left (m'.graph.operands node)).2 rest).run
        (w'.sweep (others ++ (m'.freeOperands left (m'.graph.operands node)).1.cells)) := by
  rw [visitAllReleasing, StateT.run_bind]
  unfold Runs at h
  rw [h]
  rfl

theorem visitAllReleasing_of_visit_error {rest : List NodeId} {e : ExecError}
    (h : Runs (m.visit node) w (.error e) w') :
    (m.visitAllReleasing others left (node :: rest)).run w = ((m, .error e), w') := by
  rw [visitAllReleasing, StateT.run_bind]
  unfold Runs at h
  rw [h]
  rfl

theorem Abreast.visitAll (left : Remaining) (order : List NodeId) (h : Abreast others m v w) :
    ∃ m' r v' w', (m.visitAll left order).run v = ((m', r), v') ∧
      (m.visitAllReleasing others left order).run w = ((m', r), w') ∧ Abreast others m' v' w' ∧
      v.Adds v' ∧ Spares ExecError.isReleased r := by
  induction order generalizing m left v w with
  | nil => exact ⟨m, .ok (), v, w, rfl, rfl, h, .refl, spares_ok ()⟩
  | cons node rest ih =>
    obtain ⟨r, v₁, w₁, hv, hw, hsame, hnext, hadds, hspares⟩ := h.visit node
    cases r with
    | error e =>
      refine ⟨m, .error e, v₁, w₁, visitAll_of_visit_error hv, visitAllReleasing_of_visit_error hw,
        hsame, hadds, spares_error (hspares e rfl)⟩
    | ok m₁ =>
      have htrims := trims_freeOperands m₁ left (m₁.graph.operands node)
      have hswept := ((hnext m₁ rfl).trims htrims).sweep
      obtain ⟨m', r, v', w', hv', hw', hend, hadds', hspares'⟩ :=
        ih (m₁.freeOperands left (m₁.graph.operands node)).2 hswept
      exact ⟨m', r, v', w', (visitAll_of_visit_ok hv).trans hv',
        (visitAllReleasing_of_visit_ok hw).trans hw', hend, hadds.trans hadds', hspares'⟩

/-- Outputs are live, so collecting them fails only if one is missing. -/
theorem collect_abreast (h : Abreast others m v w) (l : List (String × NodeId))
    (found : SchemeValuation Scheme.bitwise) :
    m.collect v l found = m.collect w l found ∧
      Spares ExecError.isReleased (m.collect v l found).2 := by
  obtain ⟨K, hvw, hm, -⟩ := h
  induction l generalizing found with
  | nil => exact ⟨rfl, spares_ok ()⟩
  | cons e l ih =>
    obtain ⟨name, id⟩ := e
    unfold collect
    cases hx : m.values.find? id with
    | none => exact ⟨rfl, spares_error rfl⟩
    | some x =>
      cases x with
      | cipher c =>
        obtain ⟨cell, hv, hw⟩ := hvw.cells _ _ (hm id _ hx c rfl)
        have hlive {u : Vault} (hu : u.read? c.context c.handle = some cell) :
            Scheme.bitwise.isLive c u = true := Option.isSome_iff_exists.mpr ⟨cell, hu⟩
        dsimp only
        rw [if_pos (hlive hv), if_pos (hlive hw)]
        exact ih _
      | plain | raw => exact ih _

theorem cells_of_outputs {out : SchemeValuation Scheme.bitwise}
    (hm : cellDiscipline.Accepts K m) (hout : m.outputs v = (out, .ok ())) :
    ∀ c ∈ out.cells, c ∈ K := by
  refine cells_of_suits fun name x hx => ?_
  obtain ⟨node, -, hnode⟩ := (outputs_ok hout).1 name x hx
  exact hm node x hnode

theorem runReleasing_of_failure {order : List NodeId} {e : ExecError}
    (ho : m.graph.forwardOrder = .ok order)
    (h : (m.visitAllReleasing others m.graph.useCounts order).run w = ((m', .error e), w')) :
    (m.runReleasing others).run w = ((m', .error e), w') := by
  unfold runReleasing
  rw [ho]
  dsimp only
  rw [StateT.run_bind]
  change StateT.run _ ((m.visitAllReleasing others m.graph.useCounts order).run w).2 = _
  rw [h]
  rfl

theorem runReleasing_of_visited {order : List NodeId} (ho : m.graph.forwardOrder = .ok order)
    (h : (m.visitAllReleasing others m.graph.useCounts order).run w = ((m', .ok ()), w')) :
    (m.runReleasing others).run w =
      ((m', (m'.outputs w').2.map fun _ => (m'.outputs w').1), w') := by
  unfold runReleasing
  rw [ho]
  dsimp only
  rw [StateT.run_bind]
  change StateT.run _ ((m.visitAllReleasing others m.graph.useCounts order).run w).2 = _
  rw [h]
  dsimp only
  rw [StateT.run_bind]
  simp only [StateT.run_get, pure_bind]
  rcases m'.outputs w' with ⟨found, _ | _⟩ <;> rfl

/-- How an execution ends in both vaults: they hold what the others need, and the outputs. -/
structure Closes (others : List (Nat × Nat)) (r : Except ExecError (SchemeValuation Scheme.bitwise))
    (v v' w' : Vault) : Prop where
  adds : v.Adds v'
  spares : Spares ExecError.isReleased r
  alike : ∃ K, Alike K v' w' ∧ (∀ c ∈ others, c ∈ K) ∧ ∀ out, r = .ok out → ∀ c ∈ out.cells, c ∈ K

theorem Abreast.closes {e : ExecError} (h : Abreast others m v' w')
    (hadds : v.Adds v') (he : e.isReleased = false) :
    Closes others (.error e) v v' w' := by
  obtain ⟨K, hvw, -, hothers⟩ := h
  exact ⟨hadds, spares_error he, K, hvw, hothers, nofun⟩

theorem Abreast.run (h : Abreast others m v w) :
    ∃ m' r v' w', m.run.run v = ((m', r), v') ∧ (m.runReleasing others).run w = ((m', r), w') ∧
      Closes others r v v' w' := by
  cases ho : m.graph.forwardOrder with
  | error e =>
    refine ⟨m, .error (.graph e), v, w, ?_, ?_, h.closes .refl rfl⟩
    · unfold Machine.run
      rw [ho]
      rfl
    · unfold runReleasing
      rw [ho]
      rfl
  | ok order =>
    obtain ⟨m', r, v', w', hv, hw, hend, hadds, hspares⟩ :=
      h.visitAll m.graph.useCounts order
    cases r with
    | error e =>
      exact ⟨m', .error e, v', w', run_of_failure ho hv, runReleasing_of_failure ho hw,
        hend.closes hadds (hspares e rfl)⟩
    | ok u =>
      obtain ⟨hsame, hout⟩ := collect_abreast hend m'.graph.outputs.entries ∅
      have hrun := runReleasing_of_visited ho hw
      rw [outputs, ← hsame] at hrun
      refine ⟨m', _, v', w', run_of_visited ho hv, hrun, ?_⟩
      rcases hcollected : m'.outputs v' with ⟨found, e | u⟩
      · exact hend.closes hadds (hout e (congrArg Prod.snd hcollected))
      · obtain ⟨K, hvw, hm, hothers⟩ := hend
        refine ⟨hadds, spares_ok found, K, hvw, hothers, ?_⟩
        rintro _ ⟨⟩
        exact cells_of_outputs hm hcollected

end Machine

open Machine

section

variable {keys : Public Scheme.bitwise.kind} {g : Graph} {inputs : SchemeValuation Scheme.bitwise}
  {others : List (Nat × Nat)} {K : Set (Nat × Nat)} {v w : Vault}

theorem execute_releasing (hvw : Alike K v w) (hinputs : ∀ c ∈ inputs.cells, c ∈ K)
    (hothers : ∀ c ∈ others, c ∈ K) :
    ∃ r v' w', Runs (execute Scheme.bitwise keys g inputs) v r v' ∧
      Runs (executeReleasing others keys g inputs) w r w' ∧ Closes others r v v' w' := by
  have hfails {e : ExecError} (he : e.isReleased = false) : Closes others (.error e) v v w :=
    ⟨.refl, spares_error he, K, hvw, hothers, nofun⟩
  unfold execute executeReleasing
  cases hcreate : Machine.create g keys with
  | error e =>
    obtain ⟨fault, rfl⟩ := create_error hcreate
    refine ⟨.error (.configuration fault), v, w, ?_, ?_, hfails rfl⟩
    · exact runs_bind_error.mpr (.inl (runs_liftM.mpr ⟨rfl, rfl⟩))
    · exact runs_bind_error.mpr (.inl (runs_liftM.mpr ⟨rfl, rfl⟩))
  | ok m =>
    obtain ⟨-, rfl⟩ := create_ok.mp hcreate
    simp only [runs_bind_of_ok (runs_liftM.mpr ⟨rfl, rfl⟩)]
    rcases hbound : bindAll ⟨g, keys, ∅⟩ inputs.entries with ⟨start, e | u⟩
    · obtain ⟨fault, rfl⟩ := bindAll_error hbound
      exact ⟨_, v, w, runs_throw.mpr ⟨rfl, rfl⟩, runs_throw.mpr ⟨rfl, rfl⟩, hfails rfl⟩
    · have hstart : cellDiscipline.Accepts K start :=
        bindAll_induct (P := cellDiscipline.Accepts K) hbound (by simp [Discipline.Accepts])
          fun m node name x hx hm _ _ => hm.put (suits_of_cells hinputs hx)
      obtain ⟨m', r, v', w', hv, hw, hend⟩ := Abreast.run ⟨K, hvw, hstart, hothers⟩
      refine ⟨r, v', w', ?_, ?_, hend⟩
      · exact (runs_bind_of_ok (runs_liftM_state.mpr ⟨rfl, rfl⟩)).mpr
          (runs_liftM.mpr (by rw [hv]; exact ⟨rfl, rfl⟩))
      · exact (runs_bind_of_ok (runs_liftM_state.mpr ⟨rfl, rfl⟩)).mpr
          (runs_liftM.mpr (by rw [hw]; exact ⟨rfl, rfl⟩))

end

end CipherGraph

import CipherGraph.Proofs.CompiledCourses
import CipherGraph.Proofs.Refusals

/-! # The nodes that lowering adds

The report of a lowering tells of most of the nodes that it adds. What it leaves out are operations
that are made again as they were because one of their operands was raw.
-/

namespace CipherGraph

/-- The nodes that a report tells of: encodings, operations with their operands exchanged, and two
for every difference. -/
def LoweringReport.told (r : LoweringReport) : Nat :=
  r.encodesInserted + r.commuted + 2 * r.subsReplaced

/-- Whether arithmetic on operands of these classes is made again as it is. -/
def SchemeKind.remakes (kind : SchemeKind) : Arithmetic → ValueClass → ValueClass → Bool
  | _, .cipher, .raw => true
  | .sub, .raw, .cipher => kind.capabilities.plainMinusCipher
  | .div, .raw, .cipher => kind.capabilities.plainByCipherDivision
  | _, _, _ => false

/-- Whether a visit makes a node again as it is. -/
def LoweringState.remakes (s : LoweringState) (kind : SchemeKind) (id : NodeId) : Bool :=
  match s.graph.op? id, s.graph.classes s.types id with
  | .ok (.arithmetic op), [a, b] => kind.remakes op a b
  | _, _ => false

theorem SchemeKind.remakes_clear (kind : SchemeKind) (op : Arithmetic) {a b : ValueClass}
    (ha : a.isCipher = false) (hb : b.isCipher = false) : kind.remakes op a b = false := by
  cases a with
  | cipher => cases ha
  | raw | plain =>
    cases b with
    | cipher => cases hb
    | raw | plain => cases op <;> rfl

namespace Lower

variable {s s₁ s' : LoweringState} {o : LoweringOptions} {op : Arithmetic} {id lhs rhs : NodeId}
  {a b : ValueClass} {found : Option NodeId} {k l : Nat}

/-- So many nodes are added that the report does not tell of. -/
def Adds (k : Nat) (s s' : LoweringState) : Prop :=
  s'.graph.nodeCount + s.report.told = s.graph.nodeCount + s'.report.told + k

theorem Adds.refl (s : LoweringState) : Adds 0 s s := rfl

theorem Adds.trans (h : Adds k s s₁) (h' : Adds l s₁ s') : Adds (k + l) s s' := by
  unfold Adds at *
  omega

theorem Adds.trans_told {n : Nat} {report : LoweringReport} (h : Adds k s s₁)
    (h' : Adds l { s₁ with report } s') (htold : report.told + n = s₁.report.told + (k + l)) :
    Adds n s s' := by
  unfold Adds at *
  dsimp only at h'
  omega

theorem state_of_checkRotation {op : Operation} {u : Unit}
    (h : Runs (checkRotation o id op) s (.ok u) s') : s' = s := by
  unfold checkRotation at h
  obtain ⟨_, _, htype, hrest⟩ := runs_bind_ok.mp h
  obtain ⟨-, rfl⟩ := runs_typeOf_ok.mp htype
  split at hrest
  · cases (runs_throw.mp hrest).1
  · exact (runs_pure.mp hrest).2

theorem runs_emit_adds {op : Operation} {operands : List NodeId} {type : ValueClass}
    (hop : op.isOriginal = false) (h : Runs (emit op operands type) s (.ok id) s')
    (hs : s.graph.Reachable) : Adds 1 s s' := by
  rcases runs_emit hop h with ⟨id', graph, counters, hm, -, rfl⟩ | ⟨_, -, he, -⟩
  · obtain ⟨-, -, -, -, -, rfl⟩ := Graph.makeNode_ok.mp hm
    have hcount := Graph.nodeCount_grow_of_ascending hs.sound.ascending ⟨id', op⟩ operands
    rw [Graph.declare_of_isOriginal hop]
    unfold Adds
    dsimp only
    omega
  · cases he

section

variable (hs : s.graph.Reachable)

include hs

theorem runs_encodeRaw_adds (h : Runs (encodeRaw o id a) s (.ok lhs) s') : Adds 0 s s' := by
  unfold encodeRaw at h
  split at h
  · refine (Adds.refl s).trans_told (runs_emit_adds rfl (runs_modify_bind.mp h) hs) ?_
    unfold LoweringReport.told
    dsimp only
    omega
  · obtain ⟨-, rfl⟩ := runs_pure.mp h
    exact .refl _

theorem runs_again_adds (h : Runs (again op lhs rhs a b) s (.ok found) s') :
    Adds (if a = .raw || b = .raw then 1 else 0) s s' := by
  unfold again at h
  split at h
  · next hraw =>
    rw [if_pos hraw]
    obtain ⟨new, s₁, hemit, hend⟩ := runs_bind_ok.mp h
    obtain ⟨-, rfl⟩ := runs_pure.mp hend
    exact runs_emit_adds rfl hemit hs
  · next hclear =>
    rw [if_neg hclear]
    obtain ⟨-, rfl⟩ := runs_pure.mp h
    exact .refl _

theorem runs_commute_adds (h : Runs (commute op lhs rhs) s (.ok found) s') : Adds 0 s s' := by
  unfold commute at h
  obtain ⟨new, s₁, hemit, hend⟩ := runs_bind_ok.mp (runs_modify_bind.mp h)
  obtain ⟨-, rfl⟩ := runs_pure.mp hend
  refine (Adds.refl s).trans_told (runs_emit_adds rfl hemit hs) ?_
  unfold LoweringReport.told
  dsimp only
  omega

theorem runs_negateAndAdd_adds (h : Runs (negateAndAdd lhs rhs) s (.ok found) s') :
    Adds 0 s s' := by
  unfold negateAndAdd at h
  obtain ⟨negated, s₁, hnegate, hrest⟩ := runs_bind_ok.mp h
  obtain ⟨new, s₂, hemit, hend⟩ := runs_bind_ok.mp (runs_modify_bind.mp hrest)
  obtain ⟨-, rfl⟩ := runs_pure.mp hend
  have hs₁ := (Steps.emit rfl _ _ _ _ _ hnegate).reachable hs
  refine (runs_emit_adds rfl hnegate hs).trans_told (runs_emit_adds rfl hemit hs₁) ?_
  unfold LoweringReport.told
  dsimp only
  omega

/-- An encrypted operation is made again untold where it stays as it is but for an operand. -/
theorem runs_rewritten_adds (hc : a = .cipher ∨ b = .cipher)
    (h : Runs (rewritten o id op lhs rhs a b) s (.ok found) s') :
    Adds (if o.scheme.remakes op a b then 1 else 0) s s' := by
  unfold rewritten at h
  split at h
  · next ha =>
    have ha : a = .cipher := by simpa [ValueClass.isCipher] using ha
    subst ha
    have hadds := runs_again_adds hs h
    cases b <;> cases op <;> exact hadds
  · next ha =>
    have hb : b = .cipher := hc.resolve_left (by simpa [ValueClass.isCipher] using ha)
    subst hb
    cases op with
    | add | mul =>
      have hadds := runs_commute_adds hs h
      cases a <;> exact hadds
    | sub =>
      dsimp only at h
      split at h
      · next hcan =>
        have hadds := runs_again_adds hs h
        cases a with
        | raw => simpa [SchemeKind.remakes, hcan] using hadds
        | plain => exact hadds
        | cipher => exact absurd rfl ha
      · next hcannot =>
        have hadds := runs_negateAndAdd_adds hs h
        cases a with
        | raw => simpa [SchemeKind.remakes, hcannot] using hadds
        | plain => exact hadds
        | cipher => exact absurd rfl ha
    | div =>
      dsimp only at h
      split at h
      · next hcan =>
        have hadds := runs_again_adds hs h
        cases a with
        | raw => simpa [SchemeKind.remakes, hcan] using hadds
        | plain => exact hadds
        | cipher => exact absurd rfl ha
      · cases (runs_throw.mp h).1

theorem runs_replacementOfEncrypted_adds (hc : a = .cipher ∨ b = .cipher)
    (h : Runs (replacementOfEncrypted o id op lhs rhs a b) s (.ok found) s') :
    Adds (if o.scheme.remakes op a b then 1 else 0) s s' := by
  rw [replacementOfEncrypted_eq] at h
  obtain ⟨lhs', s₁, hlhs, hrest⟩ := runs_bind_ok.mp h
  obtain ⟨rhs', s₂, hrhs, hrest⟩ := runs_bind_ok.mp hrest
  have hs₁ := (Steps.encodeRaw o lhs a _ _ _ hlhs).reachable hs
  have hs₂ := (Steps.encodeRaw o rhs b _ _ _ hrhs).reachable hs₁
  have hboth := (runs_encodeRaw_adds hs hlhs).trans (runs_encodeRaw_adds hs₁ hrhs)
  simpa using hboth.trans (runs_rewritten_adds hs₂ hc hrest)

theorem runs_replacementOfArithmetic_adds (hop : s.graph.op? id = .ok (.arithmetic op))
    (h : Runs (replacementOfArithmetic o id op) s (.ok found) s') :
    Adds (if s.remakes o.scheme id then 1 else 0) s s' := by
  have hn := (Graph.op?_eq_ok hs.sound.ascending).mp hop
  obtain ⟨lhs, rhs, hoperands⟩ := List.length_eq_two.mp (hs.sound.arity _ hn)
  dsimp only at hoperands
  -- A search that succeeds has found the classes of both operands.
  obtain ⟨a, b, ha, hb⟩ : ∃ a b, s.types.find? lhs = some a ∧ s.types.find? rhs = some b := by
    unfold replacementOfArithmetic at h
    rw [runs_get_bind, hoperands] at h
    obtain ⟨a, _, hlhs, hrest⟩ := runs_bind_ok.mp h
    obtain ⟨b, _, hrhs, -⟩ := runs_bind_ok.mp hrest
    obtain ⟨ha, rfl⟩ := runs_typeOf_ok.mp hlhs
    exact ⟨a, b, ha, (runs_typeOf_ok.mp hrhs).1⟩
  have hclasses : s.graph.classes s.types id = [a, b] := by
    rw [Graph.classes, hoperands, List.filterMap_cons_some ha, List.filterMap_cons_some hb,
      List.filterMap_nil]
  have hremakes : s.remakes o.scheme id = o.scheme.remakes op a b := by
    rw [LoweringState.remakes, hop, hclasses]
  rw [runs_replacementOfArithmetic_iff hoperands ha hb] at h
  rw [hremakes]
  split at h
  · cases (runs_throw.mp h).1
  · split at h
    · next hc =>
      exact runs_replacementOfEncrypted_adds hs (by simpa [ValueClass.isCipher] using hc) h
    · next hclear =>
      obtain ⟨-, rfl⟩ := runs_pure.mp h
      simp only [Bool.or_eq_true, not_or, Bool.not_eq_true] at hclear
      rw [o.scheme.remakes_clear op hclear.1 hclear.2]
      exact .refl _

theorem runs_replacement_adds (h : Runs (replacement? o id) s (.ok found) s') :
    Adds (if s.remakes o.scheme id then 1 else 0) s s' := by
  unfold replacement? at h
  rw [runs_get_bind] at h
  cases hop : s.graph.op? id with
  | error e =>
    rw [hop] at h
    obtain ⟨_, _, hthrow, -⟩ := runs_bind_ok.mp h
    cases (runs_throw.mp hthrow).1
  | ok operation =>
    rw [hop, runs_bind_of_ok (runs_ofGraph_ok operation)] at h
    have hnone (hother : ∀ op, operation ≠ .arithmetic op) : s.remakes o.scheme id = false := by
      unfold LoweringState.remakes
      rw [hop]
      split
      · next heq _ => exact absurd (Except.ok.inj heq) (hother _)
      · rfl
    cases operation with
    | arithmetic op => exact runs_replacementOfArithmetic_adds hs hop h
    | aggregate => cases (runs_throw.mp h).1
    | rotateLeft | rotateRight =>
      rw [hnone nofun]
      obtain ⟨_, _, hcheck, hend⟩ := runs_bind_ok.mp h
      obtain ⟨-, rfl⟩ := runs_pure.mp hend
      obtain rfl := state_of_checkRotation hcheck
      exact .refl _
    | constant value =>
      rw [hnone nofun]
      dsimp only at h
      split at h
      · obtain ⟨-, rfl⟩ := runs_pure.mp h
        exact .refl _
      · cases (runs_throw.mp h).1
    | input | output | negate | encode =>
      rw [hnone nofun]
      obtain ⟨-, rfl⟩ := runs_pure.mp h
      exact .refl _

/-- A visit adds the nodes that the report tells of and the one that is made again, if any. -/
theorem runs_step_adds (h : Runs (step o id) s (.ok ()) s') :
    Adds (if s.remakes o.scheme id then 1 else 0) s s' := by
  rcases runs_step h with ⟨r, hfound, -, hr⟩ | ⟨new, s₁, hfound, hreplaced⟩
  · obtain _ | found := r
    · cases hr
    · exact runs_replacement_adds hs hfound
  · obtain ⟨n, graph, hreplace, -, rfl⟩ | ⟨_, -, he, -⟩ := hreplaced
    · have hadds := runs_replacement_adds hs hfound
      obtain ⟨_, rfl⟩ := Graph.replaceUses_frame hreplace
      exact hadds
    · cases he

end

/-- The number of nodes that are made again when these are visited in turn. -/
def remade (o : LoweringOptions) : List NodeId → LoweringState → Nat
  | [], _ => 0
  | id :: order, s =>
    (if s.remakes o.scheme id then 1 else 0) + remade o order ((step o id).run.run s).2

theorem runs_steps_adds {order : List NodeId} (hs : s.graph.Reachable)
    (h : Runs (order.forM (step o)) s (.ok ()) s') : Adds (remade o order s) s s' := by
  induction order generalizing s with
  | nil =>
    obtain ⟨-, rfl⟩ := runs_pure.mp h
    exact .refl _
  | cons id order ih =>
    obtain ⟨_, s₁, hfirst, hrest⟩ := runs_bind_ok.mp h
    have hs₁ := (Steps.step o id _ _ _ hfirst).reachable hs
    have hstate : ((step o id).run.run s).2 = s₁ := congrArg Prod.snd hfirst
    rw [remade, hstate]
    exact (runs_step_adds hs hfirst).trans (ih hs₁ hrest)

end Lower

namespace Graph

variable {g : Graph} {o : CompileOptions} {c c' : IdCounters} {cg : CompiledGraph}

/-- The number of nodes that a compilation makes again as they are. -/
def remade (g : Graph) (o : CompileOptions) (c : IdCounters) : Nat :=
  match g.inferTypes, g.forwardOrder with
  | .ok types, .ok order => Lower.remade ⟨o.scheme, o.scaleBits⟩ order (g.loweringStart types c)
  | _, _ => 0

theorem compile_report (h : Runs (g.compile o) c (.ok cg) c') :
    cg.report = (g.lowering o c).report := by
  unfold compile at h
  split at h
  · obtain ⟨first, c₁, h₁, hrest⟩ := runs_bind_ok.mp h
    obtain ⟨⟨graph, report⟩, c₂, h₂, hrest⟩ := runs_bind_ok.mp hrest
    obtain ⟨types, c₃, -, hrest⟩ := runs_bind_ok.mp hrest
    obtain ⟨requirements, c₄, -, hrest⟩ := runs_bind_ok.mp hrest
    obtain ⟨signature, c₅, -, hend⟩ := runs_bind_ok.mp hrest
    obtain ⟨hfirst, rfl⟩ := runs_compilingOfGraph.mp h₁
    cases (runs_pure.mp hend).1
    rw [lowering_eq hfirst]
    exact (runs_lowered h₂).2.2
  · cases (runs_throw.mp h).1

/-- What a compilation that succeeds has added is told by its report, but for what was made
again. -/
theorem added_eq (hg : g.Reachable) (h : Runs (g.compile o) c (.ok cg) c') :
    g.added o c = cg.report.told + g.remade o c := by
  obtain ⟨types, hstages⟩ := compile_ok h
  obtain ⟨order, ho, -⟩ := Except.bind_eq_ok.mp hstages.typed
  have hpath := (path_lower g types ⟨o.scheme, o.scaleBits⟩ c).nodeCount_le
  have hrun := runs_lower g types ⟨o.scheme, o.scaleBits⟩ c
  have hstart : (g.loweringStart types c).graph.forwardOrder = .ok order := ho
  rw [hstages.lowered] at hrun
  unfold Lower.everyNode at hrun
  rw [runs_get_bind, hstart, runs_bind_of_ok (Lower.runs_ofGraph_ok order)] at hrun
  have hadds := Lower.runs_steps_adds (s := g.loweringStart types c) hg hrun
  rw [added, remade, compile_report h, hstages.typed, ho, lowering_eq hstages.typed]
  have hnone : (g.loweringStart types c).report.told = 0 := rfl
  have hgraph : (g.loweringStart types c).graph = g := rfl
  unfold Lower.Adds at hadds
  rw [hnone, hgraph] at hadds
  rw [hgraph] at hpath
  dsimp only
  omega

end Graph

namespace Group

variable {gr : Group} {graphs : List Graph} {o : CompileOptions} {c c' : IdCounters}
  {compiled : List CompiledGraph}

/-- The number of nodes that are made again as some graphs are compiled one after the other. -/
def remadeInTurn (o : CompileOptions) : List Graph → IdCounters → Nat
  | [], _ => 0
  | g :: graphs, c => g.remade o c + remadeInTurn o graphs (g.lowering o c).counters

/-- The number of nodes that are made again as a group is compiled. -/
def remade (gr : Group) (o : CompileOptions) (c : IdCounters) : Nat := remadeInTurn o gr.graphs c

theorem InTurn.added_eq (h : InTurn o graphs c compiled c') (hg : ∀ g ∈ graphs, g.Reachable) :
    addedInTurn o graphs c = (compiled.map (·.report.told)).sum + remadeInTurn o graphs c := by
  induction h with
  | nil => rfl
  | @cons g graphs m compiled c c₁ c' h hrest ih =>
    obtain ⟨hg, hgraphs⟩ := List.forall_mem_cons.mp hg
    have hrest := ih hgraphs
    rw [Graph.compile_counters h] at hrest
    rw [addedInTurn, remadeInTurn, hrest, Graph.added_eq hg h, List.map_cons, List.sum_cons]
    omega

end Group

namespace Workshop

variable {space : IdSpace} {w : Workshop} {n : Nat} {o : CompileOptions} {c' : IdCounters}

/-- Whatever comes of a compilation, the graphs stay as they are. If it succeeds, it has handed out
an id for every node that its report tells of or that it has made again. -/
theorem At.compile (h : w.At space n) {g : Graph} (hg : g ∈ w.graphs)
    {r : Except CompileError CompiledGraph} (hrun : Runs (g.compile o) w.counters r c') :
    ∃ ids copy, Course space w ids ⟨w.graphs ++ [copy], c'⟩ ∧ ∀ cg, r = .ok cg →
      copy = cg.graph ∧ ids.length = cg.report.told + g.remade o w.counters ∧
        ∀ m ∈ cg.graph.nodes, m ∈ g.nodes ∨ m.id ∈ ids := by
  have hown := h.graphs g hg
  obtain ⟨ids, copy, hcourse, hok⟩ := course_compile space hg hown.2 hrun
  refine ⟨ids, copy, hcourse, ?_⟩
  rintro cg rfl
  obtain ⟨rfl, hlength⟩ := hok cg rfl
  refine ⟨rfl, hlength.trans (Graph.added_eq hown.2 hrun), fun m hm => ?_⟩
  -- With no graph beside it, the copy has the nodes of its original.
  have halone : At space ⟨[g], w.counters⟩ n := ⟨h.key, h.peek, by simpa using hown⟩
  obtain ⟨ids', _, hcourse', hok'⟩ :=
    course_compile space (w := ⟨[g], w.counters⟩) List.mem_cons_self hown.2 hrun
  obtain ⟨rfl, hlength'⟩ := hok' cg rfl
  have hids := halone.ids_eq hcourse' h hcourse (hlength'.trans hlength.symm)
  rcases halone.has_course hcourse' ⟨cg.graph, by simp, hm⟩ with ⟨k, hk, hmk⟩ | hid
  · exact .inl (List.mem_singleton.mp hk ▸ hmk)
  · exact .inr (hids ▸ hid)

theorem At.compileGroup (h : w.At space n) {gr : Group} (hgr : gr.Sound)
    (hgraphs : ∀ g ∈ gr.graphs, g ∈ w.graphs) {r : Except CompileError CompiledGroup}
    (hrun : Runs (gr.compile o) w.counters r c') :
    ∃ ids copies, Course space w ids ⟨w.graphs ++ copies, c'⟩ ∧ ∀ cg, r = .ok cg →
      copies = cg.members.values.map (·.graph) ∧
        ids.length = (cg.members.values.map (·.report.told)).sum + gr.remade o w.counters ∧
        ∀ copy ∈ copies, ∀ m ∈ copy.nodes, (∃ g ∈ gr.graphs, m ∈ g.nodes) ∨ m.id ∈ ids := by
  have hown : ∀ g ∈ gr.graphs, g.space = space ∧ g.Reachable := fun g hg =>
    h.graphs g (hgraphs g hg)
  obtain ⟨ids, copies, hcourse, hok⟩ := course_compileGroup space hgr
    (fun g hg => ⟨hgraphs g hg, (hown g hg).2⟩) hrun
  refine ⟨ids, copies, hcourse, ?_⟩
  rintro cg rfl
  obtain ⟨rfl, hlength⟩ := hok cg rfl
  have hturn := (Group.inTurn_of_compile hgr hrun).1
  refine ⟨rfl, hlength.trans (hturn.added_eq fun g hg => (hown g hg).2), fun copy hcopy m hm => ?_⟩
  have halone : At space ⟨gr.graphs, w.counters⟩ n := ⟨h.key, h.peek, hown⟩
  obtain ⟨ids', _, hcourse', hok'⟩ := course_compileGroup space hgr
    (w := ⟨gr.graphs, w.counters⟩) (fun g hg => ⟨hg, (hown g hg).2⟩) hrun
  obtain ⟨rfl, hlength'⟩ := hok' cg rfl
  have hids := halone.ids_eq hcourse' h hcourse (hlength'.trans hlength.symm)
  rcases halone.has_course hcourse' ⟨copy, List.mem_append_right _ hcopy, hm⟩ with hm | hid
  · exact .inl hm
  · exact .inr (hids ▸ hid)

/-- Compiling never gets in the way of other work. Compilations of graphs and groups, whether they
succeed or fail, and calls on graphs are courses. Compilations leave all graphs as they are; one
that succeeds has handed out an id for every node that its report tells of or that it has made
again. As long as the counter does not come round, a course hands out the ids that follow one
another from the next one, which no node has, and moves no other counter; nodes with the same id
stay the same, no graph hides a node, and whatever comes next is a course again. -/
theorem Underway.compilations_apart (h : w.Underway space) :
    (∀ g ∈ w.graphs, ∀ o r c', Runs (g.compile o) w.counters r c' →
      ∃ ids copy, Course space w ids ⟨w.graphs ++ [copy], c'⟩ ∧ ∀ cg, r = .ok cg →
        copy = cg.graph ∧ ids.length = cg.report.told + g.remade o w.counters ∧
          ∀ m ∈ cg.graph.nodes, m ∈ g.nodes ∨ m.id ∈ ids) ∧
    (∀ gr : Group, gr.Reachable → (∀ g ∈ gr.graphs, g ∈ w.graphs) → ∀ o r c',
      Runs (gr.compile o) w.counters r c' →
      ∃ ids copies, Course space w ids ⟨w.graphs ++ copies, c'⟩ ∧ ∀ cg, r = .ok cg →
        copies = cg.members.values.map (·.graph) ∧
          ids.length = (cg.members.values.map (·.report.told)).sum + gr.remade o w.counters ∧
          ∀ copy ∈ copies, ∀ m ∈ copy.nodes, (∃ g ∈ gr.graphs, m ∈ g.nodes) ∨ m.id ∈ ids) ∧
    (∀ i g, w.graphs[i]? = some g → ∀ call : Graph.Call, ∃ ids, ids.length ≤ 1 ∧
      Course space w ids
        ⟨w.graphs.set i (call.apply (g, w.counters)).1, (call.apply (g, w.counters)).2⟩) ∧
    ∀ ids w', Course space w ids w' → w.counters.peek space + ids.length < NodeId.bound →
      w'.Underway space ∧ w'.counters.peek space = w.counters.peek space + ids.length ∧
        (∀ other, other ≠ space → w'.counters.peek other = w.counters.peek other) ∧
        ids = List.range' (w.counters.peek space) ids.length ∧
        (∀ m, w.Has m → m.id ∉ ids) ∧ (∀ m, w'.Has m → w.Has m ∨ m.id ∈ ids) ∧
        (w.Agree → w'.Agree) ∧ w.HidesNoMore w' := by
  have hat := h.at_position
  refine ⟨fun g hg o r c' => hat.compile hg, fun gr hgr hgraphs o r c' =>
    hat.compileGroup hgr.sound hgraphs, fun i g hg call => course_call hat hg call,
    fun ids w' hc hroom => ?_⟩
  have hclear := h.clear
  have hlimit : NodeId.bound - 1 ≤ NodeId.bound := Nat.sub_le _ _
  have hbelow := Nat.le_sub_one_of_lt hroom
  obtain ⟨hclear', hagree, hhides⟩ := hclear.course hlimit hc hbelow
  obtain ⟨hids, hnew⟩ := hclear.ids_new hlimit hc hbelow
  exact ⟨hclear'.underway hroom, hclear'.at_position.peek_of_lt hroom,
    fun other => hat.peek_course hc, hids, fun m hm hid => hnew m.id hid m hm rfl,
    fun m => hat.has_course hc, hagree, hhides⟩

/-- `x / 2` is compiled twice. Each time its constant is encoded and the quotient made again, and no
two nodes that differ have the same id. -/
theorem Underway.compilations_apart_quotient : ∃ cg₁ cg₂,
    Underway ⟨0⟩ ⟨[.quotient 2], ⟨[4]⟩⟩ ∧
      Runs ((Graph.quotient 2).compile ⟨.ckks, 60⟩) ⟨[4]⟩ (.ok cg₁) ⟨[6]⟩ ∧
      Runs ((Graph.quotient 2).compile ⟨.ckks, 60⟩) ⟨[6]⟩ (.ok cg₂) ⟨[8]⟩ ∧
      Agree ⟨[.quotient 2, cg₁.graph, cg₂.graph], ⟨[8]⟩⟩ := by
  have hdrawn := Graph.drawn_quotient 2
  have hquotient : Underway ⟨0⟩ ⟨[.quotient 2], ⟨[4]⟩⟩ := by
    refine ⟨by decide, by decide, fun g hg => ?_⟩
    obtain rfl := List.mem_singleton.mp hg
    exact ⟨rfl, hdrawn.reachable, hdrawn.under.space, fun id hid _ => hdrawn.under.ids id hid⟩
  have hagree : Agree ⟨[.quotient 2], ⟨[4]⟩⟩ := by
    rintro m m' ⟨g, hg, hm⟩ ⟨g', hg', hm'⟩ heq
    obtain rfl := List.mem_singleton.mp hg
    obtain rfl := List.mem_singleton.mp hg'
    exact hdrawn.reachable.sound.node_eq hm hm' heq
  obtain ⟨cg₁, hrun₁, htold₁⟩ : ∃ cg, Runs ((Graph.quotient 2).compile ⟨.ckks, 60⟩) ⟨[4]⟩ (.ok cg)
      ⟨[6]⟩ ∧ cg.report.told + (Graph.quotient 2).remade ⟨.ckks, 60⟩ ⟨[4]⟩ = 2 := by
    refine ⟨?_, ?_, ?_⟩
    rotate_left
    · unfold Runs
      cbv
      rfl
    · cbv
  obtain ⟨cg₂, hrun₂, htold₂⟩ : ∃ cg, Runs ((Graph.quotient 2).compile ⟨.ckks, 60⟩) ⟨[6]⟩ (.ok cg)
      ⟨[8]⟩ ∧ cg.report.told + (Graph.quotient 2).remade ⟨.ckks, 60⟩ ⟨[6]⟩ = 2 := by
    refine ⟨?_, ?_, ?_⟩
    rotate_left
    · unfold Runs
      cbv
      rfl
    · cbv
  obtain ⟨hcompile₁, -, -, hcourse₁⟩ := hquotient.compilations_apart
  obtain ⟨ids₁, _, hc₁, hok₁⟩ := hcompile₁ _ List.mem_cons_self _ _ _ hrun₁
  obtain ⟨rfl, hlength₁, -⟩ := hok₁ cg₁ rfl
  have hroom₁ : 4 + ids₁.length < NodeId.bound := by
    rw [hlength₁, htold₁]
    decide
  obtain ⟨hfirst, -, -, -, -, -, hagree₁, -⟩ := hcourse₁ _ _ hc₁ hroom₁
  obtain ⟨hcompile₂, -, -, hcourse₂⟩ := hfirst.compilations_apart
  obtain ⟨ids₂, _, hc₂, hok₂⟩ := hcompile₂ _ List.mem_cons_self _ _ _ hrun₂
  obtain ⟨rfl, hlength₂, -⟩ := hok₂ cg₂ rfl
  have hroom₂ : 6 + ids₂.length < NodeId.bound := by
    rw [hlength₂, htold₂]
    decide
  obtain ⟨-, -, -, -, -, -, hagree₂, -⟩ := hcourse₂ _ _ hc₂ hroom₂
  exact ⟨cg₁, cg₂, hquotient, hrun₁, hrun₂, hagree₂ (hagree₁ hagree)⟩

end Workshop

end CipherGraph

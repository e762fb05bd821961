import CipherGraph.Proofs.Acyclicity
import CipherGraph.Proofs.Changes
import CipherGraph.Proofs.Requirements

/-! # Visits that succeed

A visit succeeds where the scheme has a form for the operation: what it reads is there and has a
class, and what it puts in place ranks between the operands and the node that gives way. So the
graph stays acyclic, and the analysis of an acyclic graph succeeds too.
-/

namespace CipherGraph

/-- Whether a scheme has a form for an operation, whatever the classes of its operands. -/
def SchemeKind.lowers (kind : SchemeKind) : Operation → Bool
  | .constant value => kind.holds value
  | .arithmetic .div => kind.capabilities.division && kind.capabilities.plainByCipherDivision
  | .rotateLeft _ | .rotateRight _ => kind.capabilities.rotation
  | .aggregate _ => false
  | _ => true

theorem SchemeKind.lowers_div {kind : SchemeKind} {op : Arithmetic}
    (h : kind.lowers (.arithmetic op) = true) (hop : op = .div) :
    kind.capabilities.division = true ∧ kind.capabilities.plainByCipherDivision = true := by
  subst hop
  simpa [lowers] using h

namespace Lower

variable {rank rank' rank'' : NodeId → Nat} {s s₁ s' s'' : LoweringState} {n : Nat}

/-- A graph of which every node ranks above its operands and has a class. -/
structure Legible (rank : NodeId → Nat) (s : LoweringState) : Prop where
  sound : s.graph.Sound
  visible : s.graph.hidden = []
  ranked : s.graph.Ranked rank
  typed : ∀ id ∈ s.graph.ids, ∃ type, s.types.find? id = some type

/-- A later state with all the nodes, at their ranks. -/
structure Keeps (rank : NodeId → Nat) (s : LoweringState) (rank' : NodeId → Nat)
    (s' : LoweringState) : Prop where
  legible : Legible rank' s'
  nodes : ∀ k ∈ s.graph.nodes, k ∈ s'.graph.nodes
  rank : ∀ id ∈ s.graph.ids, rank' id = rank id

/-- A node of rank at most `n`. -/
structure Stands (rank : NodeId → Nat) (s : LoweringState) (id : NodeId) (n : Nat) : Prop where
  mem : id ∈ s.graph.ids
  le : rank id ≤ n

theorem Legible.keeps (hs : Legible rank s) : Keeps rank s rank s :=
  ⟨hs, fun _ hk => hk, fun _ _ => rfl⟩

theorem Legible.keeps_reported (hs : Legible rank s) (report : LoweringReport) :
    Keeps rank s rank { s with report } :=
  ⟨⟨hs.sound, hs.visible, hs.ranked, hs.typed⟩, fun _ hk => hk, fun _ _ => rfl⟩

theorem Keeps.ids (h : Keeps rank s rank' s') {id : NodeId} (hid : id ∈ s.graph.ids) :
    id ∈ s'.graph.ids := by
  obtain ⟨k, hk, rfl⟩ := List.mem_map.mp hid
  exact Graph.mem_ids_of_mem_nodes (h.nodes k hk)

theorem Keeps.trans (h : Keeps rank s rank' s') (h' : Keeps rank' s' rank'' s'') :
    Keeps rank s rank'' s'' where
  legible := h'.legible
  nodes k hk := h'.nodes k (h.nodes k hk)
  rank id hid := (h'.rank id (h.ids hid)).trans (h.rank id hid)

theorem Stands.keeps {id : NodeId} (hd : Stands rank s id n) (h : Keeps rank s rank' s') :
    Stands rank' s' id n := by
  refine ⟨h.ids hd.mem, ?_⟩
  rw [h.rank id hd.mem]
  exact hd.le

theorem Stands.mono {id : NodeId} {n' : Nat} (hd : Stands rank s id n) (h : n ≤ n') :
    Stands rank s id n' := ⟨hd.mem, hd.le.trans h⟩

theorem Legible.emitted (hs : Legible rank s) {op : Operation} {operands : List NodeId}
    {id : NodeId} (hlen : operands.length = op.arity)
    (hin : ∀ k ∈ operands, k ∈ s.graph.ids ∧ rank k < n) (hid : id ∉ s.graph.ids)
    (type : ValueClass) (counters : IdCounters) :
    Keeps rank s (Function.update rank id n)
      { s with
        graph := s.graph.grow ⟨id, op⟩ operands
        types := s.types.insert id type
        counters } := by
  have hrank {k : NodeId} (hk : k ∈ s.graph.ids) : Function.update rank id n k = rank k := by
    apply Function.update_of_ne
    rintro rfl
    exact hid hk
  refine ⟨⟨hs.sound.grow hlen fun k hk => (hin k hk).1, ?_,
    hs.ranked.grow hs.sound hs.visible hid hin, ?_⟩, ?_, fun k hk => hrank hk⟩
  · exact Graph.grow_hidden_eq_nil.mpr ⟨hid, hs.visible⟩
  · intro k hk
    dsimp only
    by_cases hkid : k = id
    · exact ⟨type, by rw [hkid, OrderedMap.find?_insert_self]⟩
    · obtain ⟨d, hd⟩ := hs.typed k ((Graph.mem_ids_grow.mp hk).resolve_left hkid)
      exact ⟨d, by rw [OrderedMap.find?_insert_of_ne (Ne.symm hkid), hd]⟩
  · exact fun k hk => Graph.mem_nodes_grow_of_mem hs.sound hid hk

theorem runs_emit_legible (hs : Legible rank s) {op : Operation} {operands : List NodeId}
    {type : ValueClass} {r : Except CompileError NodeId} (hlen : operands.length = op.arity)
    (hop : op.isOriginal = false) (hin : ∀ k ∈ operands, Stands rank s k n)
    (h : Runs (emit op operands type) s r s') (hv : s'.graph.hidden = []) :
    ∃ id rank', r = .ok id ∧ Keeps rank s rank' s' ∧ Stands rank' s' id (n + 1) := by
  rcases runs_emit hop h with ⟨id, graph, counters, hm, rfl, rfl⟩ | ⟨e, hm, -, -⟩
  · obtain ⟨-, -, -, -, -, rfl⟩ := Graph.makeNode_ok.mp hm
    rw [Graph.declare_of_isOriginal hop] at hv ⊢
    have hid : id ∉ s.graph.ids := (Graph.grow_hidden_eq_nil.mp hv).1
    have hkeeps := hs.emitted (n := n + 1) hlen
      (fun k hk => ⟨(hin k hk).mem, Nat.lt_succ_of_le (hin k hk).le⟩) hid type counters
    refine ⟨id, _, rfl, hkeeps, Graph.mem_ids_grow.mpr (.inl rfl), ?_⟩
    rw [Function.update_self]
  · have hm' := Graph.makeNode_ok (c := s.counters).mpr ⟨hlen, fun k hk => (hin k hk).mem,
      Graph.declares_of_isOriginal hop, rfl, rfl, rfl⟩
    cases (hm.unique hm').1

variable {o : LoweringOptions} {id lhs rhs : NodeId} {op : Arithmetic}
  {lhsType rhsType : ValueClass}

theorem runs_encodeRaw_legible (hs : Legible rank s) (hd : Stands rank s id n) {type : ValueClass}
    {r : Except CompileError NodeId} (h : Runs (encodeRaw o id type) s r s')
    (hv : s'.graph.hidden = []) :
    ∃ id' rank', r = .ok id' ∧ Keeps rank s rank' s' ∧ Stands rank' s' id' (n + 1) := by
  unfold encodeRaw at h
  split at h
  · have hrep := hs.keeps_reported
      { s.report with encodesInserted := s.report.encodesInserted + 1 }
    obtain ⟨id', rank', hr, hkeeps, hnew⟩ := runs_emit_legible (n := n) hrep.legible rfl rfl
      (by simpa using hd.keeps hrep) (runs_modify_bind.mp h) hv
    exact ⟨id', rank', hr, hrep.trans hkeeps, hnew⟩
  · obtain ⟨rfl, rfl⟩ := runs_pure.mp h
    exact ⟨id, rank, rfl, hs.keeps, hd.mono (Nat.le_succ n)⟩

theorem runs_emitArithmetic_legible (hs : Legible rank s) (hl : Stands rank s lhs n)
    (hr : Stands rank s rhs n) {r : Except CompileError NodeId}
    (h : Runs (emitArithmetic op lhs rhs) s r s') (hv : s'.graph.hidden = []) :
    ∃ id rank', r = .ok id ∧ Keeps rank s rank' s' ∧ Stands rank' s' id (n + 1) := by
  refine runs_emit_legible hs rfl rfl (fun k hk => ?_) h hv
  rcases List.mem_pair.mp hk with rfl | rfl
  · exact hl
  · exact hr

/-- A search for a replacement that succeeds, whether or not it has found one. -/
def Answers (rank : NodeId → Nat) (s : LoweringState) (n : Nat)
    (r : Except CompileError (Option NodeId)) (s' : LoweringState) : Prop :=
  ∃ found rank', r = .ok found ∧ Keeps rank s rank' s' ∧
    ∀ new, found = some new → Stands rank' s' new n

section Rewriting

variable {r : Except CompileError (Option NodeId)}

theorem Legible.answers_none (hs : Legible rank s) : Answers rank s n (.ok none) s :=
  ⟨none, rank, rfl, hs.keeps, by rintro _ ⟨⟩⟩

theorem Answers.trans (h : Keeps rank s rank' s₁) (ha : Answers rank' s₁ n r s') :
    Answers rank s n r s' := by
  obtain ⟨found, rank'', hr, hkeeps, hnew⟩ := ha
  exact ⟨found, rank'', hr, h.trans hkeeps, hnew⟩

theorem Answers.mono {n' : Nat} (ha : Answers rank s n r s') (h : n ≤ n') :
    Answers rank s n' r s' := by
  obtain ⟨found, rank', hr, hkeeps, hnew⟩ := ha
  exact ⟨found, rank', hr, hkeeps, fun new hfound => (hnew new hfound).mono h⟩

theorem answers_of_node {m : Lower NodeId}
    (hm : ∀ r s', Runs m s r s' → s'.graph.hidden = [] →
      ∃ id rank', r = .ok id ∧ Keeps rank s rank' s' ∧ Stands rank' s' id n)
    (h : Runs (do return some (← m)) s r s') (hv : s'.graph.hidden = []) :
    Answers rank s n r s' := by
  rcases runs_bind h with ⟨e, h₁, -⟩ | ⟨id, s₁, h₁, hrest⟩
  · obtain ⟨_, _, hr, -⟩ := hm _ _ h₁ hv
    cases hr
  · obtain ⟨rfl, rfl⟩ := runs_pure.mp hrest
    obtain ⟨id', rank', hr, hkeeps, hnew⟩ := hm _ _ h₁ hv
    cases hr
    refine ⟨some id, rank', rfl, hkeeps, ?_⟩
    rintro _ ⟨⟩
    exact hnew

theorem runs_again_legible (hs : Legible rank s) (hl : Stands rank s lhs n)
    (hr : Stands rank s rhs n) (h : Runs (again op lhs rhs lhsType rhsType) s r s')
    (hv : s'.graph.hidden = []) : Answers rank s (n + 1) r s' := by
  unfold again at h
  split at h
  · exact answers_of_node (fun _ _ h hv => runs_emitArithmetic_legible hs hl hr h hv) h hv
  · obtain ⟨rfl, rfl⟩ := runs_pure.mp h
    exact hs.answers_none

theorem runs_commute_legible (hs : Legible rank s) (hl : Stands rank s lhs n)
    (hr : Stands rank s rhs n) (h : Runs (commute op lhs rhs) s r s')
    (hv : s'.graph.hidden = []) : Answers rank s (n + 1) r s' := by
  have hrep := hs.keeps_reported { s.report with commuted := s.report.commuted + 1 }
  exact .trans hrep (answers_of_node (fun _ _ h hv => runs_emitArithmetic_legible hrep.legible
    (hr.keeps hrep) (hl.keeps hrep) h hv) (runs_modify_bind.mp h) hv)

theorem runs_negateAndAdd_legible (hs : Legible rank s) (hl : Stands rank s lhs n)
    (hr : Stands rank s rhs n) (h : Runs (negateAndAdd lhs rhs) s r s')
    (hv : s'.graph.hidden = []) : Answers rank s (n + 2) r s' := by
  have hemit (r : Except CompileError NodeId) (s' : LoweringState)
      (h : Runs (emit .negate [rhs] .cipher) s r s') (hv : s'.graph.hidden = []) :=
    runs_emit_legible (n := n) hs rfl rfl (by simpa using hr) h hv
  unfold negateAndAdd at h
  rcases runs_bind h with ⟨e, h₁, -⟩ | ⟨negated, s₁, h₁, hrest⟩
  · obtain ⟨_, _, he, -⟩ := hemit _ _ h₁ hv
    cases he
  · rw [count, runs_modify_bind] at hrest
    have hpath := Steps.bind (.emitArithmetic _ _ _) (fun _ => .pure _) _ _ _ hrest
    have hv₁ : s₁.graph.hidden = [] := hpath.hidden_eq_nil hv
    obtain ⟨_, rank₁, hok, hkeeps, hneg⟩ := hemit _ _ h₁ hv₁
    cases hok
    have hrep := hkeeps.legible.keeps_reported
      { s₁.report with subsReplaced := s₁.report.subsReplaced + 1 }
    exact .trans (hkeeps.trans hrep) (answers_of_node (fun _ _ h hv =>
      runs_emitArithmetic_legible hrep.legible (hneg.keeps hrep)
        (((hl.keeps hkeeps).keeps hrep).mono (Nat.le_succ n)) h hv) hrest hv)

theorem runs_rewritten_legible (hs : Legible rank s) (hl : Stands rank s lhs n)
    (hr : Stands rank s rhs n) (hop : o.scheme.lowers (.arithmetic op) = true)
    (h : Runs (rewritten o id op lhs rhs lhsType rhsType) s r s') (hv : s'.graph.hidden = []) :
    Answers rank s (n + 2) r s' := by
  unfold rewritten at h
  split at h
  · exact (runs_again_legible hs hl hr h hv).mono (Nat.le_succ _)
  · split at h
    · exact (runs_commute_legible hs hl hr h hv).mono (Nat.le_succ _)
    · exact (runs_commute_legible hs hl hr h hv).mono (Nat.le_succ _)
    · split at h
      · exact (runs_again_legible hs hl hr h hv).mono (Nat.le_succ _)
      · exact runs_negateAndAdd_legible hs hl hr h hv
    · rw [if_pos (SchemeKind.lowers_div hop rfl).2] at h
      exact (runs_again_legible hs hl hr h hv).mono (Nat.le_succ _)

theorem runs_replacementOfEncrypted_legible (hs : Legible rank s) (hl : Stands rank s lhs n)
    (hr : Stands rank s rhs n) (hop : o.scheme.lowers (.arithmetic op) = true)
    (h : Runs (replacementOfEncrypted o id op lhs rhs lhsType rhsType) s r s')
    (hv : s'.graph.hidden = []) : Answers rank s (n + 3) r s' := by
  rw [replacementOfEncrypted_eq] at h
  rcases runs_bind h with ⟨e, h₁, -⟩ | ⟨lhs', s₁, h₁, hrest⟩
  · obtain ⟨_, _, he, -⟩ := runs_encodeRaw_legible hs hl h₁ hv
    cases he
  · have hv₁ := Path.hidden_eq_nil
      (Steps.bind (.encodeRaw _ _ _) (fun _ => .rewritten _ _ _ _ _ _ _) _ _ _ hrest) hv
    obtain ⟨_, rank₁, hok, hkeeps₁, hl'⟩ := runs_encodeRaw_legible hs hl h₁ hv₁
    cases hok
    rcases runs_bind hrest with ⟨e, h₂, -⟩ | ⟨rhs', s₂, h₂, hrest⟩
    · obtain ⟨_, _, he, -⟩ := runs_encodeRaw_legible hkeeps₁.legible (hr.keeps hkeeps₁) h₂ hv
      cases he
    · have hv₂ := Path.hidden_eq_nil (Steps.rewritten _ _ _ _ _ _ _ _ _ _ hrest) hv
      obtain ⟨_, rank₂, hok, hkeeps₂, hr'⟩ :=
        runs_encodeRaw_legible hkeeps₁.legible (hr.keeps hkeeps₁) h₂ hv₂
      cases hok
      exact .trans (hkeeps₁.trans hkeeps₂)
        (runs_rewritten_legible hkeeps₂.legible (hl'.keeps hkeeps₂) hr' hop hrest hv)

theorem runs_typeOf_ok {c : ValueClass} :
    Runs (typeOf id) s (.ok c) s' ↔ s.types.find? id = some c ∧ s' = s := by
  unfold typeOf
  rw [runs_get_bind, ← Typing.of_eq_ok]
  cases s.types.of id with
  | ok d =>
    rw [ofGraph, runs_pure, Except.ok.injEq, Except.ok.injEq]
    exact and_congr_left fun _ => eq_comm
  | error e => simp [ofGraph]

theorem runs_replacementOfArithmetic_iff {a b : ValueClass}
    (hoperands : s.graph.operands id = [lhs, rhs]) (ha : s.types.find? lhs = some a)
    (hb : s.types.find? rhs = some b) :
    Runs (replacementOfArithmetic o id op) s r s' ↔
      Runs (if op = .div && !o.scheme.capabilities.division && (a.isCipher || b.isCipher) then
          throw (.unsupported id op.name o.scheme)
        else if a.isCipher || b.isCipher then replacementOfEncrypted o id op lhs rhs a b
        else return none) s r s' := by
  unfold replacementOfArithmetic
  rw [runs_get_bind]
  simp only [hoperands]
  rw [runs_bind_of_ok (runs_typeOf_ok.mpr ⟨ha, rfl⟩),
    runs_bind_of_ok (runs_typeOf_ok.mpr ⟨hb, rfl⟩)]
  split <;> rfl

theorem Legible.runs_typeOf (hs : Legible rank s) (hid : id ∈ s.graph.ids) :
    ∃ type, Runs (typeOf id) s (.ok type) s :=
  (hs.typed id hid).imp fun _ htype => runs_typeOf_ok.mpr ⟨htype, rfl⟩

/-- Between a node and its operands there is room for what may take its place. -/
def Roomy (rank : NodeId → Nat) (s : LoweringState) (id : NodeId) : Prop :=
  ∀ k ∈ s.graph.operands id, rank k + 3 ≤ rank id

theorem runs_replacementOfArithmetic_legible (hs : Legible rank s)
    (hn : ⟨id, .arithmetic op⟩ ∈ s.graph.nodes) (hroomy : Roomy rank s id)
    (hop : o.scheme.lowers (.arithmetic op) = true)
    (h : Runs (replacementOfArithmetic o id op) s r s') (hv : s'.graph.hidden = []) :
    Answers rank s (rank id) r s' := by
  obtain ⟨lhs, rhs, a, b, hoperands, ha, hb, -⟩ :=
    Graph.exists_arithmetic_operands hs.sound hs.visible hs.typed hn
  have hstands (k : NodeId) (hk : k ∈ [lhs, rhs]) : Stands rank s k (rank id - 3) := by
    rw [← hoperands] at hk
    exact ⟨hs.sound.mem_ids_of_mem_operands hs.visible hk, Nat.le_sub_of_add_le (hroomy k hk)⟩
  have hl := hstands lhs (by simp)
  have hr := hstands rhs (by simp)
  rw [runs_replacementOfArithmetic_iff hoperands ha hb] at h
  split at h
  · next hdiv =>
    simp only [Bool.and_eq_true, decide_eq_true_eq, Bool.not_eq_true'] at hdiv
    have hcapable := (SchemeKind.lowers_div hop hdiv.1.1).1
    rw [hdiv.1.2] at hcapable
    cases hcapable
  · split at h
    · have hbelow : rank id - 3 + 3 = rank id := by
        have := hroomy lhs (by simp [hoperands])
        omega
      rw [← hbelow]
      exact runs_replacementOfEncrypted_legible hs hl hr hop h hv
    · obtain ⟨rfl, rfl⟩ := runs_pure.mp h
      exact hs.answers_none

theorem Legible.runs_checkRotation (hs : Legible rank s) (hid : id ∈ s.graph.ids)
    (hrotation : o.scheme.capabilities.rotation = true) (operation : Operation) :
    Runs (checkRotation o id operation) s (.ok ()) s := by
  obtain ⟨type, htype⟩ := hs.runs_typeOf hid
  unfold checkRotation
  rw [runs_bind_of_ok htype]
  simp [hrotation]

theorem runs_checkRotation_legible (hs : Legible rank s) (hid : id ∈ s.graph.ids)
    (hrotation : o.scheme.capabilities.rotation = true) {operation : Operation}
    (h : Runs (do
      checkRotation o id operation
      return none) s r s') : Answers rank s n r s' := by
  rw [runs_bind_of_ok (hs.runs_checkRotation hid hrotation operation)] at h
  obtain ⟨rfl, rfl⟩ := runs_pure.mp h
  exact hs.answers_none

theorem runs_replacement_legible (hs : Legible rank s) {k : Node} (hk : k ∈ s.graph.nodes)
    (hroomy : Roomy rank s k.id) (hop : o.scheme.lowers k.op = true)
    (h : Runs (replacement? o k.id) s r s') (hv : s'.graph.hidden = []) :
    Answers rank s (rank k.id) r s' := by
  obtain ⟨id, operation⟩ := k
  have hid : id ∈ s.graph.ids := Graph.mem_ids_of_mem_nodes hk
  unfold replacement? at h
  rw [runs_get_bind, (Graph.op?_eq_ok hs.sound.ascending).mpr hk,
    runs_bind_of_ok (runs_ofGraph_ok operation)] at h
  cases operation with
  | aggregate => cases hop
  | arithmetic => exact runs_replacementOfArithmetic_legible hs hk hroomy hop h hv
  | rotateLeft | rotateRight => exact runs_checkRotation_legible hs hid hop h
  | constant value =>
    dsimp only at h
    rw [if_pos (show o.scheme.holds value = true from hop)] at h
    obtain ⟨rfl, rfl⟩ := runs_pure.mp h
    exact hs.answers_none
  | input | output | negate | encode =>
    obtain ⟨rfl, rfl⟩ := runs_pure.mp h
    exact hs.answers_none

end Rewriting

theorem Legible.replaced (hs : Legible rank s) {old new : NodeId} {count : Nat} {graph : Graph}
    (hr : s.graph.replaceUses old new = .ok (count, graph)) (hrank : rank new ≤ rank old) :
    Legible rank { s with graph } := by
  have hsound := hs.sound.replaceUses hr
  obtain ⟨-, -, ⟨-, -, rfl⟩ | ⟨-, -, rfl⟩⟩ := Graph.replaceUses_eq_ok.mp hr
  · exact ⟨hsound, hs.visible, hs.ranked, hs.typed⟩
  · exact ⟨hsound, hs.visible, hs.ranked.redirect hs.sound hs.visible hrank, hs.typed⟩

theorem Legible.spread (hs : Legible rank s) : Legible (fun id => 3 * rank id) s :=
  ⟨hs.sound, hs.visible,
    fun id k hk => Nat.mul_lt_mul_of_pos_left (hs.ranked id k hk) (by omega), hs.typed⟩

theorem Legible.roomy (hs : Legible rank s) (id : NodeId) :
    Roomy (fun id => 3 * rank id) s id := by
  intro k hk
  have := hs.ranked id k hk
  dsimp only
  omega

theorem runs_step_legible (hs : Legible rank s) {k : Node} (hk : k ∈ s.graph.nodes)
    (hop : o.scheme.lowers k.op = true) {r : Except CompileError Unit}
    (h : Runs (step o k.id) s r s') (hv : s'.graph.hidden = []) :
    r = .ok () ∧ ∃ rank', Legible rank' s' := by
  have hid := Graph.mem_ids_of_mem_nodes hk
  rcases runs_step h with ⟨r', h₁, -, rfl⟩ | ⟨new, s₁, h₁, hreplaced⟩
  · obtain ⟨found, rank', rfl, hkeeps, -⟩ :=
      runs_replacement_legible hs.spread hk (hs.roomy k.id) hop h₁ hv
    exact ⟨rfl, rank', hkeeps.legible⟩
  · have hv₁ : s₁.graph.hidden = [] := by
      rcases hreplaced with ⟨count, graph, hu, -, rfl⟩ | ⟨e, -, -, rfl⟩
      · exact (Change.replaced hu).hidden_eq_nil hv
      · exact hv
    obtain ⟨found, rank', hok, hkeeps, hnew⟩ :=
      runs_replacement_legible hs.spread hk (hs.roomy k.id) hop h₁ hv₁
    cases hok
    obtain ⟨hmem, hle⟩ := hnew new rfl
    rcases hreplaced with ⟨count, graph, hu, hr, rfl⟩ | ⟨e, hu, -, -⟩
    · refine ⟨hr, rank', hkeeps.legible.replaced hu ?_⟩
      rw [hkeeps.rank k.id hid]
      exact hle
    · obtain ⟨_, _, hu'⟩ := Graph.exists_replaceUses_ok (hkeeps.ids hid) hmem
      cases hu.symm.trans hu'

end Lower

namespace Graph

open Lower

variable {g : Graph} {t : Typing} {c : IdCounters}

theorem legible_start (hg : g.Sound) (hv : g.hidden = []) (ht : g.inferTypes = .ok t)
    (c : IdCounters) : ∃ rank, Legible rank (g.loweringStart t c) := by
  obtain ⟨rank, hrank⟩ := hg.exists_rank hv ht
  exact ⟨rank, hg, hv, hrank, fun id hid => (typed_of_inferTypes hg ht id hid).imp fun _ h => h.1⟩

theorem signature_ok (o : CompileOptions) (hg : g.Named)
    (ht : ∀ id ∈ g.ids, ∃ type, t.find? id = some type) : ∃ sig, g.signature t o = .ok sig := by
  have htype {id : NodeId} (hid : id ∈ g.ids) : ∃ type, t.of id = .ok type :=
    (ht id hid).imp fun _ => Typing.of_eq_ok.mpr
  obtain ⟨inputs, hinputs⟩ := exists_mapM_ok (l := g.inputs.entries)
    (f := fun e => do return (e.1, inputEncoding o (← t.of e.2))) (by
      rintro ⟨name, id⟩ hentry
      obtain ⟨_, hn⟩ := hg.inputs name id hentry
      obtain ⟨d, hd⟩ := htype (mem_ids_of_mem_nodes hn)
      exact ⟨_, Except.bind_eq_ok.mpr ⟨d, hd, rfl⟩⟩)
  obtain ⟨outputs, houtputs⟩ := exists_mapM_ok (l := g.outputs.entries)
    (f := fun e => do return (e.1, ← t.of e.2)) (by
      rintro ⟨name, id⟩ hentry
      obtain ⟨d, hd⟩ := htype (mem_ids_of_mem_nodes (hg.outputs name id hentry))
      exact ⟨_, Except.bind_eq_ok.mpr ⟨d, hd, rfl⟩⟩)
  exact ⟨_, Except.bind_eq_ok.mpr ⟨inputs, hinputs, Except.bind_eq_ok.mpr ⟨outputs, houtputs, rfl⟩⟩⟩

theorem Acyclic.analyzed (ha : g.Acyclic) (o : CompileOptions) (hg : g.Sound) (hv : g.hidden = [])
    (hnamed : g.Named) : ∃ types requirements sig, g.inferTypes = .ok types ∧
      g.requirements types = .ok requirements ∧ g.signature types o = .ok sig := by
  obtain ⟨order, ho⟩ := (hg.forwardOrder_iff_acyclic hv).mpr ha
  obtain ⟨types, htypes⟩ := hg.inferTypes_ok hv ho
  obtain ⟨r, hr⟩ := requirements_ok hg htypes
  obtain ⟨sig, hsig⟩ := signature_ok o hnamed fun id hid =>
    (typed_of_inferTypes hg htypes id hid).imp fun _ h => h.1
  exact ⟨types, r, sig, htypes, hr, hsig⟩

end Graph

end CipherGraph

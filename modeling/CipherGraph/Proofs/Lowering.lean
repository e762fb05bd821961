import CipherGraph.Proofs.Changes
import CipherGraph.Proofs.Meaning

/-! # Lowering keeps denotations

While a graph is lowered, its nodes keep one solution of their equations: a new node extends it,
and a node is replaced by one of the same value. Ranks show that no cycle arises.
-/

namespace CipherGraph

variable {V : Type}

/-- A rank and a denotation for every node. -/
structure Marking (V : Type) where
  rank : NodeId → Nat
  value : NodeId → Meaning V

namespace Marking

variable (μ : Marking V) {id k : NodeId} (n : Nat) (d : Meaning V)

def update (id : NodeId) (n : Nat) (d : Meaning V) : Marking V :=
  ⟨Function.update μ.rank id n, Function.update μ.value id d⟩

@[simp] theorem rank_update_self : (μ.update id n d).rank id = n := Function.update_self ..

@[simp] theorem value_update_self : (μ.update id n d).value id = d := Function.update_self ..

theorem rank_update_of_ne (h : k ≠ id) : (μ.update id n d).rank k = μ.rank k :=
  Function.update_of_ne h ..

theorem value_update_of_ne (h : k ≠ id) : (μ.update id n d).value k = μ.value k :=
  Function.update_of_ne h ..

end Marking

namespace Lower

variable {I : Interpretation V} {scaleBits : Nat} {μ μ' μ'' : Marking V}
  {s s' s'' : LoweringState}

/-- The marking ranks the nodes of a graph that hides none and solves their equations. -/
structure Faithful (I : Interpretation V) (scaleBits : Nat) (μ : Marking V) (s : LoweringState) :
    Prop where
  sound : s.graph.Sound
  visible : s.graph.hidden = []
  orderly : s.graph.Orderly I scaleBits
  ranked : s.graph.Ranked μ.rank
  solves : s.graph.Solves I scaleBits μ.value
  typed : ∀ id ∈ s.graph.ids, s.types.find? id = some (μ.value id).type

/-- A later state, in which every node keeps its rank and its value. -/
structure Extends (I : Interpretation V) (scaleBits : Nat) (μ : Marking V) (s : LoweringState)
    (μ' : Marking V) (s' : LoweringState) : Prop where
  faithful : Faithful I scaleBits μ' s'
  ids : ∀ id ∈ s.graph.ids, id ∈ s'.graph.ids
  rank : ∀ id ∈ s.graph.ids, μ'.rank id = μ.rank id
  value : ∀ id ∈ s.graph.ids, μ'.value id = μ.value id

/-- A node of rank at most `n` that denotes `d`. -/
structure Holds (μ : Marking V) (s : LoweringState) (id : NodeId) (n : Nat) (d : Meaning V) :
    Prop where
  mem : id ∈ s.graph.ids
  rank : μ.rank id ≤ n
  value : μ.value id = d

theorem Faithful.extends (h : Faithful I scaleBits μ s) : Extends I scaleBits μ s μ s :=
  ⟨h, fun _ hid => hid, fun _ _ => rfl, fun _ _ => rfl⟩

theorem Extends.trans (h : Extends I scaleBits μ s μ' s') (h' : Extends I scaleBits μ' s' μ'' s'') :
    Extends I scaleBits μ s μ'' s'' where
  faithful := h'.faithful
  ids id hid := h'.ids id (h.ids id hid)
  rank id hid := (h'.rank id (h.ids id hid)).trans (h.rank id hid)
  value id hid := (h'.value id (h.ids id hid)).trans (h.value id hid)

theorem Holds.extends {id : NodeId} {n : Nat} {d : Meaning V} (hd : Holds μ s id n d)
    (h : Extends I scaleBits μ s μ' s') : Holds μ' s' id n d :=
  ⟨h.ids id hd.mem, (h.rank id hd.mem).symm ▸ hd.rank, (h.value id hd.mem).trans hd.value⟩

theorem Holds.mono {id : NodeId} {n n' : Nat} {d : Meaning V} (hd : Holds μ s id n d)
    (h : n ≤ n') : Holds μ s id n' d :=
  ⟨hd.mem, Nat.le_trans hd.rank h, hd.value⟩

theorem Faithful.emitted (hs : Faithful I scaleBits μ s) {op : Operation} {operands : List NodeId}
    {type : ValueClass} {x : V} {n : Nat} {id : NodeId}
    (hlen : operands.length = op.arity)
    (hin : ∀ o ∈ operands, o ∈ s.graph.ids ∧ μ.rank o < n)
    (hd : I.apply scaleBits op (operands.map μ.value) = some ⟨type, x⟩) (hid : id ∉ s.graph.ids)
    (counters : IdCounters) :
    Extends I scaleBits μ s (μ.update id n ⟨type, x⟩)
      { s with
        graph := s.graph.grow ⟨id, op⟩ operands
        types := s.types.insert id type
        counters } := by
  have hold {o : NodeId} (ho : o ∈ s.graph.ids) : o ≠ id := by
    rintro rfl
    exact hid ho
  have hrank {o : NodeId} (ho : o ∈ s.graph.ids) :
      (μ.update id n ⟨type, x⟩).rank o = μ.rank o := μ.rank_update_of_ne _ _ (hold ho)
  have hvalue {o : NodeId} (ho : o ∈ s.graph.ids) :
      (μ.update id n ⟨type, x⟩).value o = μ.value o := μ.value_update_of_ne _ _ (hold ho)
  have hself : (s.graph.grow ⟨id, op⟩ operands).operands id = operands :=
    Graph.operands_grow_self hs.sound.targets
  refine ⟨⟨hs.sound.grow hlen fun o ho => (hin o ho).1, Graph.grow_hidden_eq_nil.mpr
    ⟨hid, hs.visible⟩, hs.orderly.imp_left fun h => h.grow hs.sound _ _,
    hs.ranked.grow hs.sound hs.visible hid hin, fun k hk => ?_, fun k hk => ?_⟩,
    fun k hk => ?_, fun k hk => ?_, fun k hk => ?_⟩
  · dsimp only at hk ⊢
    rw [Graph.grow_nodes, Graph.mem_placeNode hs.sound.ascending] at hk
    rcases hk with rfl | ⟨hk, hne⟩
    · dsimp only
      rw [hself, List.map_congr_left fun o ho => hvalue (hin o ho).1, hd, μ.value_update_self]
    · rw [Graph.operands_grow_of_ne hne, List.map_congr_left fun o ho =>
        hvalue (hs.sound.mem_ids_of_mem_operands hs.visible ho), hs.solves k hk,
        hvalue (Graph.mem_ids_of_mem_nodes hk)]
  · dsimp only at hk ⊢
    by_cases hkid : k = id
    · subst hkid
      rw [OrderedMap.find?_insert_self, μ.value_update_self]
    · have hk := (Graph.mem_ids_grow.mp hk).resolve_left hkid
      rw [OrderedMap.find?_insert_of_ne (Ne.symm hkid), hs.typed k hk, hvalue hk]
  · exact Graph.mem_ids_grow.mpr (.inr hk)
  · exact hrank hk
  · exact hvalue hk

theorem runs_emit_faithful (hs : Faithful I scaleBits μ s) {op : Operation}
    {operands : List NodeId} {n : Nat} {r : Except CompileError NodeId} (d : Meaning V)
    (hlen : operands.length = op.arity) (hop : op.isOriginal = false)
    (hin : ∀ o ∈ operands, o ∈ s.graph.ids ∧ μ.rank o < n)
    (hd : I.apply scaleBits op (operands.map μ.value) = some d)
    (h : Runs (emit op operands d.type) s r s') (hv : s'.graph.hidden = []) :
    ∃ id μ', r = .ok id ∧ Extends I scaleBits μ s μ' s' ∧ Holds μ' s' id n d := by
  rcases runs_emit hop h with ⟨id, graph, counters, hm, rfl, rfl⟩ | ⟨e, hm, -, -⟩
  · obtain ⟨-, -, -, -, -, rfl⟩ := Graph.makeNode_ok.mp hm
    have hgrow := Graph.declare_of_isOriginal (g := s.graph.grow ⟨id, op⟩ operands) hop id
    rw [hgrow] at hv ⊢
    have hid : id ∉ s.graph.ids := (Graph.grow_hidden_eq_nil.mp hv).1
    have hext := hs.emitted hlen hin hd hid counters
    exact ⟨id, _, rfl, hext, Graph.mem_ids_grow.mpr (.inl rfl),
      Nat.le_of_eq (μ.rank_update_self ..), μ.value_update_self ..⟩
  · have hm' := Graph.makeNode_ok (c := s.counters).mpr ⟨hlen, fun o ho => (hin o ho).1,
      Graph.declares_of_isOriginal hop, rfl, rfl, rfl⟩
    cases (hm.unique hm').1

theorem Faithful.extends_reported (hs : Faithful I scaleBits μ s) (report : LoweringReport) :
    Extends I scaleBits μ s μ { s with report } :=
  ⟨⟨hs.sound, hs.visible, hs.orderly, hs.ranked, hs.solves, hs.typed⟩, fun _ hid => hid,
    fun _ _ => rfl, fun _ _ => rfl⟩

/-- An operand as encrypted arithmetic reads it. -/
def encoded (I : Interpretation V) (scaleBits : Nat) (d : Meaning V) : Meaning V :=
  ⟨if d.type = .raw then .plain else d.type, I.read scaleBits d⟩

theorem encoded_type_ne_raw (I : Interpretation V) (scaleBits : Nat) (d : Meaning V) :
    (encoded I scaleBits d).type ≠ .raw := by
  unfold encoded
  split <;> simp_all

theorem encoded_type_eq_cipher (I : Interpretation V) (scaleBits : Nat) {d : Meaning V}
    (h : d.type = .cipher) : (encoded I scaleBits d).type = .cipher := by
  simp [encoded, h]

theorem encoded_of_ne_raw {d : Meaning V} (h : d.type ≠ .raw) :
    encoded I scaleBits d = d := by
  simp [encoded, Interpretation.read, h]

/-- What encrypted arithmetic computes from operands that are encoded. -/
def encryptedResult (I : Interpretation V) (op : Arithmetic) (a b : Meaning V) : Meaning V :=
  ⟨.cipher, I.encrypted op a.value b.value⟩

theorem arithmetic_eq_encoded {op : Arithmetic} {a b : Meaning V}
    (hc : a.type = .cipher ∨ b.type = .cipher) :
    I.arithmetic scaleBits op a b =
      encryptedResult I op (encoded I scaleBits a) (encoded I scaleBits b) := by
  have hjoin : a.type.join b.type = .cipher := by
    rcases hc with hc | hc
    · rw [hc]; cases b.type <;> rfl
    · rw [hc]; cases a.type <;> rfl
  have hcipher : (a.type.isCipher || b.type.isCipher) = true := by
    rcases hc with hc | hc <;> simp [hc, ValueClass.isCipher]
  rw [Interpretation.arithmetic, hjoin, if_pos hcipher]
  rfl

theorem arithmetic_of_ne_raw {op : Arithmetic} {a b : Meaning V} (ha : a.type ≠ .raw)
    (hb : b.type ≠ .raw) (hc : a.type = .cipher ∨ b.type = .cipher) :
    I.arithmetic scaleBits op a b = encryptedResult I op a b := by
  rw [arithmetic_eq_encoded hc, encoded_of_ne_raw ha, encoded_of_ne_raw hb]

variable {o : LoweringOptions} {id lhs rhs : NodeId} {n : Nat} {a b d : Meaning V}
  {op : Arithmetic}

theorem runs_encodeRaw (hs : Faithful I o.scaleBits μ s) (hd : Holds μ s id n d)
    {r : Except CompileError NodeId} (h : Runs (encodeRaw o id d.type) s r s')
    (hv : s'.graph.hidden = []) :
    ∃ id' μ', r = .ok id' ∧ Extends I o.scaleBits μ s μ' s' ∧
      Holds μ' s' id' (n + 1) (encoded I o.scaleBits d) := by
  unfold encodeRaw at h
  split at h
  · next hraw =>
    obtain ⟨id', μ', hr, hext, hnew⟩ := runs_emit_faithful (n := n + 1)
      (hs.extends_reported _).faithful ⟨.plain, I.encode o.scaleBits 0 d.value⟩ rfl rfl
      (fun k hk => by
        rw [List.mem_singleton.mp hk]
        exact ⟨hd.mem, Nat.lt_succ_of_le hd.rank⟩)
      (by simp [Interpretation.apply, hd.value]) (runs_modify_bind.mp h) hv
    refine ⟨id', μ', hr, (hs.extends_reported _).trans hext, ?_⟩
    simpa [encoded, Interpretation.read, hraw] using hnew
  · next hraw =>
    obtain ⟨rfl, rfl⟩ := runs_pure.mp h
    rw [encoded_of_ne_raw hraw]
    exact ⟨id, μ, rfl, hs.extends, hd.mono (Nat.le_succ n)⟩

theorem runs_emitArithmetic (hs : Faithful I scaleBits μ s) (hl : Holds μ s lhs n a)
    (hr : Holds μ s rhs n b) (ha : a.type ≠ .raw) (hb : b.type ≠ .raw)
    (hc : a.type = .cipher ∨ b.type = .cipher) {r : Except CompileError NodeId}
    (h : Runs (emitArithmetic op lhs rhs) s r s') (hv : s'.graph.hidden = []) :
    ∃ id μ', r = .ok id ∧ Extends I scaleBits μ s μ' s' ∧
      Holds μ' s' id (n + 1) (encryptedResult I op a b) := by
  refine runs_emit_faithful hs (encryptedResult I op a b) rfl rfl (fun k hk => ?_) ?_ h hv
  · rcases List.mem_pair.mp hk with rfl | rfl
    · exact ⟨hl.mem, Nat.lt_succ_of_le hl.rank⟩
    · exact ⟨hr.mem, Nat.lt_succ_of_le hr.rank⟩
  · simp only [List.map_cons, List.map_nil, hl.value, hr.value, Interpretation.apply]
    rw [arithmetic_of_ne_raw ha hb hc]

/-- What a search for a replacement leaves behind, and what it may have found. -/
def Finds (I : Interpretation V) (scaleBits : Nat) (μ : Marking V) (s : LoweringState) (n : Nat)
    (d : Meaning V) (r : Except CompileError (Option NodeId)) (s' : LoweringState) : Prop :=
  ∃ μ', Extends I scaleBits μ s μ' s' ∧ ∀ new, r = .ok (some new) → Holds μ' s' new n d

theorem Faithful.finds (hs : Faithful I scaleBits μ s) {r : Except CompileError (Option NodeId)}
    (hr : ∀ new, r ≠ .ok (some new)) : Finds I scaleBits μ s n d r s :=
  ⟨μ, hs.extends, fun new h => absurd h (hr new)⟩

theorem Finds.trans {r : Except CompileError (Option NodeId)}
    (h : Extends I scaleBits μ s μ' s') (hf : Finds I scaleBits μ' s' n d r s'') :
    Finds I scaleBits μ s n d r s'' := by
  obtain ⟨μ'', hext, hnew⟩ := hf
  exact ⟨μ'', h.trans hext, hnew⟩

theorem Finds.mono {r : Except CompileError (Option NodeId)} {n' : Nat}
    (hf : Finds I scaleBits μ s n d r s') (h : n ≤ n') : Finds I scaleBits μ s n' d r s' := by
  obtain ⟨μ', hext, hnew⟩ := hf
  exact ⟨μ', hext, fun new hr => (hnew new hr).mono h⟩

theorem finds_of_node {m : Lower NodeId} {r : Except CompileError (Option NodeId)}
    (hm : ∀ r s', Runs m s r s' → s'.graph.hidden = [] → ∃ id μ', r = .ok id ∧
      Extends I scaleBits μ s μ' s' ∧ Holds μ' s' id n d)
    (h : Runs (do return some (← m)) s r s') (hv : s'.graph.hidden = []) :
    Finds I scaleBits μ s n d r s' := by
  rcases runs_bind h with ⟨e, h₁, -⟩ | ⟨id, s₁, h₁, hrest⟩
  · obtain ⟨_, _, hr, -⟩ := hm _ _ h₁ hv
    cases hr
  · obtain ⟨rfl, rfl⟩ := runs_pure.mp hrest
    obtain ⟨id', μ', hr, hext, hnew⟩ := hm _ _ h₁ hv
    cases hr
    refine ⟨μ', hext, ?_⟩
    intro new h
    cases h
    exact hnew

section Rewriting

variable {r : Except CompileError (Option NodeId)}

theorem runs_again (hs : Faithful I scaleBits μ s) (hl : Holds μ s lhs n a)
    (hr : Holds μ s rhs n b) (ha : a.type ≠ .raw) (hb : b.type ≠ .raw)
    (hc : a.type = .cipher ∨ b.type = .cipher) {lhsType rhsType : ValueClass}
    (h : Runs (again op lhs rhs lhsType rhsType) s r s') (hv : s'.graph.hidden = []) :
    Finds I scaleBits μ s (n + 1) (encryptedResult I op a b) r s' := by
  unfold again at h
  split at h
  · exact finds_of_node (fun r s' h hv => runs_emitArithmetic hs hl hr ha hb hc h hv) h hv
  · obtain ⟨rfl, rfl⟩ := runs_pure.mp h
    exact hs.finds (by simp)

theorem runs_commute (hs : Faithful I scaleBits μ s) (hl : Holds μ s lhs n a)
    (hr : Holds μ s rhs n b) (ha : a.type ≠ .raw) (hb : b.type ≠ .raw)
    (hc : a.type = .cipher ∨ b.type = .cipher)
    (hcomm : I.encrypted op b.value a.value = I.encrypted op a.value b.value)
    (h : Runs (commute op lhs rhs) s r s') (hv : s'.graph.hidden = []) :
    Finds I scaleBits μ s (n + 1) (encryptedResult I op a b) r s' := by
  have hrep := hs.extends_reported { s.report with commuted := s.report.commuted + 1 }
  have hresult : encryptedResult I op b a = encryptedResult I op a b := by
    rw [encryptedResult, hcomm, encryptedResult]
  rw [← hresult]
  exact .trans hrep (finds_of_node (fun r s' h hv => runs_emitArithmetic hrep.faithful
    (hr.extends hrep) (hl.extends hrep) hb ha hc.symm h hv) (runs_modify_bind.mp h) hv)

theorem runs_negateAndAdd (hI : I.Lawful) (hs : Faithful I scaleBits μ s)
    (hl : Holds μ s lhs n a) (hr : Holds μ s rhs n b) (ha : a.type ≠ .raw)
    (hb : b.type = .cipher) (h : Runs (negateAndAdd lhs rhs) s r s')
    (hv : s'.graph.hidden = []) :
    Finds I scaleBits μ s (n + 2) (encryptedResult I .sub a b) r s' := by
  have hemit (r : Except CompileError NodeId) (s' : LoweringState)
      (h : Runs (emit .negate [rhs] .cipher) s r s') (hv : s'.graph.hidden = []) :=
    runs_emit_faithful (n := n + 1) hs ⟨.cipher, I.negate b⟩ rfl rfl
      (fun k hk => by
        rw [List.mem_singleton.mp hk]
        exact ⟨hr.mem, Nat.lt_succ_of_le hr.rank⟩)
      (by simp [Interpretation.apply, hr.value, hb]) h hv
  unfold negateAndAdd at h
  rcases runs_bind h with ⟨e, h₁, -⟩ | ⟨negated, s₁, h₁, hrest⟩
  · obtain ⟨_, _, hr, -⟩ := hemit _ _ h₁ hv
    cases hr
  · rw [count, runs_modify_bind] at hrest
    have hpath := Steps.bind (.emitArithmetic _ _ _) (fun _ => .pure _) _ _ _ hrest
    have hv₁ : s₁.graph.hidden = [] := hpath.hidden_eq_nil hv
    obtain ⟨_, μ₁, hnegated, hext, hneg⟩ := hemit _ _ h₁ hv₁
    cases hnegated
    have hrep := hext.faithful.extends_reported
      { s₁.report with subsReplaced := s₁.report.subsReplaced + 1 }
    have hresult : encryptedResult I .sub a b =
        encryptedResult I .add ⟨.cipher, I.negate b⟩ a := by
      obtain ⟨type, y⟩ := b
      cases hb
      rw [encryptedResult, hI.sub_eq]
      rfl
    rw [hresult]
    exact .trans (hext.trans hrep) (finds_of_node (fun r s' h hv => runs_emitArithmetic
      hrep.faithful (hneg.extends hrep) (((hl.extends hext).extends hrep).mono (Nat.le_succ n))
      (by simp) ha (.inl rfl) h hv) hrest hv)

theorem runs_rewritten (hI : I.Lawful) (hs : Faithful I scaleBits μ s)
    (hl : Holds μ s lhs n (encoded I scaleBits a)) (hr : Holds μ s rhs n (encoded I scaleBits b))
    (hc : a.type = .cipher ∨ b.type = .cipher)
    (h : Runs (rewritten o id op lhs rhs a.type b.type) s r s') (hv : s'.graph.hidden = []) :
    Finds I scaleBits μ s (n + 2) (I.arithmetic scaleBits op a b) r s' := by
  have ha' := encoded_type_ne_raw I scaleBits a
  have hb' := encoded_type_ne_raw I scaleBits b
  have hc' := hc.imp (encoded_type_eq_cipher I scaleBits) (encoded_type_eq_cipher I scaleBits)
  rw [arithmetic_eq_encoded hc]
  unfold rewritten at h
  split at h
  · exact (runs_again hs hl hr ha' hb' hc' h hv).mono (Nat.le_succ _)
  · next hlhs =>
    have hb : b.type = .cipher := hc.resolve_left (by simpa [ValueClass.isCipher] using hlhs)
    split at h
    · exact (runs_commute hs hl hr ha' hb' hc' (hI.add_comm ..) h hv).mono (Nat.le_succ _)
    · exact (runs_commute hs hl hr ha' hb' hc' (hI.mul_comm ..) h hv).mono (Nat.le_succ _)
    · split at h
      · exact (runs_again hs hl hr ha' hb' hc' h hv).mono (Nat.le_succ _)
      · exact runs_negateAndAdd hI hs hl hr ha' (encoded_type_eq_cipher I scaleBits hb) h hv
    · split at h
      · exact (runs_again hs hl hr ha' hb' hc' h hv).mono (Nat.le_succ _)
      · obtain ⟨rfl, rfl⟩ := runs_throw.mp h
        exact hs.finds (by simp)

theorem runs_replacementOfEncrypted (hI : I.Lawful) (hs : Faithful I o.scaleBits μ s)
    (hl : Holds μ s lhs n a) (hr : Holds μ s rhs n b) (hc : a.type = .cipher ∨ b.type = .cipher)
    (h : Runs (replacementOfEncrypted o id op lhs rhs a.type b.type) s r s')
    (hv : s'.graph.hidden = []) :
    Finds I o.scaleBits μ s (n + 3) (I.arithmetic o.scaleBits op a b) r s' := by
  rw [replacementOfEncrypted_eq] at h
  rcases runs_bind h with ⟨e, h₁, -⟩ | ⟨lhs', s₁, h₁, hrest⟩
  · obtain ⟨_, _, he, -⟩ := runs_encodeRaw hs hl h₁ hv
    cases he
  · have hv₁ := Path.hidden_eq_nil
      (Steps.bind (.encodeRaw _ _ _) (fun _ => .rewritten _ _ _ _ _ _ _) _ _ _ hrest) hv
    obtain ⟨_, μ₁, hok, hext₁, hl'⟩ := runs_encodeRaw hs hl h₁ hv₁
    cases hok
    rcases runs_bind hrest with ⟨e, h₂, -⟩ | ⟨rhs', s₂, h₂, hrest⟩
    · obtain ⟨_, _, he, -⟩ := runs_encodeRaw hext₁.faithful (hr.extends hext₁) h₂ hv
      cases he
    · have hv₂ := Path.hidden_eq_nil (Steps.rewritten _ _ _ _ _ _ _ _ _ _ hrest) hv
      obtain ⟨_, μ₂, hok, hext₂, hr'⟩ := runs_encodeRaw hext₁.faithful (hr.extends hext₁) h₂ hv₂
      cases hok
      exact .trans (hext₁.trans hext₂)
        (runs_rewritten hI hext₂.faithful (hl'.extends hext₂) hr' hc hrest hv)

theorem runs_typeOf (hs : Faithful I scaleBits μ s) (hid : id ∈ s.graph.ids) :
    Runs (typeOf id) s (.ok (μ.value id).type) s := by
  unfold typeOf
  rw [runs_get_bind, Typing.of_eq_ok.mpr (hs.typed id hid)]
  exact runs_pure.mpr ⟨rfl, rfl⟩

/-- A node ranks this far above its operands, so that the new nodes fit in between. -/
def Spaced (μ : Marking V) (s : LoweringState) (id : NodeId) : Prop :=
  ∀ k ∈ s.graph.operands id, μ.rank k + 4 ≤ μ.rank id

theorem runs_replacementOfArithmetic (hI : I.Lawful) (hs : Faithful I o.scaleBits μ s)
    (hop : ⟨id, .arithmetic op⟩ ∈ s.graph.nodes) (hspaced : Spaced μ s id)
    (h : Runs (replacementOfArithmetic o id op) s r s') (hv : s'.graph.hidden = []) :
    Finds I o.scaleBits μ s (μ.rank id - 1) (μ.value id) r s' := by
  obtain ⟨lhs, rhs, hoperands⟩ := List.length_eq_two.mp (hs.sound.arity _ hop)
  dsimp only at hoperands
  have hmem : ∀ k ∈ [lhs, rhs], k ∈ s.graph.ids ∧ μ.rank k + 4 ≤ μ.rank id := fun k hk =>
    ⟨hs.sound.mem_ids_of_mem_operands hs.visible (hoperands ▸ hk), hspaced k (hoperands ▸ hk)⟩
  obtain ⟨hlmem, hlrank⟩ := hmem lhs (by simp)
  obtain ⟨hrmem, hrrank⟩ := hmem rhs (by simp)
  have hvalue : μ.value id = I.arithmetic o.scaleBits op (μ.value lhs) (μ.value rhs) := by
    have hsolve := hs.solves _ hop
    simp only [hoperands, List.map_cons, List.map_nil, Interpretation.apply,
      Option.some.injEq] at hsolve
    exact hsolve.symm
  unfold replacementOfArithmetic at h
  rw [runs_get_bind] at h
  simp only [hoperands] at h
  rw [runs_bind_of_ok (runs_typeOf hs hlmem), runs_bind_of_ok (runs_typeOf hs hrmem)] at h
  split at h
  · obtain ⟨rfl, rfl⟩ := runs_throw.mp h
    exact hs.finds (by simp)
  · split at h
    · next hc =>
      have hc : (μ.value lhs).type = .cipher ∨ (μ.value rhs).type = .cipher := by
        simpa [ValueClass.isCipher] using hc
      rw [hvalue]
      exact (runs_replacementOfEncrypted hI hs (n := μ.rank id - 4)
        ⟨hlmem, Nat.le_sub_of_add_le hlrank, rfl⟩ ⟨hrmem, Nat.le_sub_of_add_le hrrank, rfl⟩
        hc h hv).mono (by omega)
    · obtain ⟨rfl, rfl⟩ := runs_pure.mp h
      exact hs.finds (by simp)

theorem runs_checkRotation (hs : Faithful I scaleBits μ s) (hid : id ∈ s.graph.ids)
    {operation : Operation} (h : Runs (do
      checkRotation o id operation
      return none) s r s') : Finds I scaleBits μ s n d r s' := by
  have hcheck (r' : Except CompileError Unit) (s₁ : LoweringState)
      (h : Runs (checkRotation o id operation) s r' s₁) : s₁ = s := by
    unfold checkRotation at h
    rw [runs_bind_of_ok (runs_typeOf hs hid)] at h
    split at h
    · exact (runs_throw.mp h).2
    · exact (runs_pure.mp h).2
  rcases runs_bind h with ⟨e, h₁, rfl⟩ | ⟨_, s₁, h₁, hrest⟩
  · rw [hcheck _ _ h₁]
    exact hs.finds (by simp)
  · obtain ⟨rfl, rfl⟩ := runs_pure.mp hrest
    rw [hcheck _ _ h₁]
    exact hs.finds (by simp)

theorem runs_replacement (hI : I.Lawful) (hs : Faithful I o.scaleBits μ s)
    (hid : id ∈ s.graph.ids) (hspaced : Spaced μ s id) (h : Runs (replacement? o id) s r s')
    (hv : s'.graph.hidden = []) :
    Finds I o.scaleBits μ s (μ.rank id - 1) (μ.value id) r s' := by
  obtain ⟨operation, hop⟩ := Graph.exists_node_of_mem_ids hid
  unfold replacement? at h
  rw [runs_get_bind, (Graph.op?_eq_ok hs.sound.ascending).mpr hop,
    runs_bind_of_ok (runs_ofGraph_ok operation)] at h
  cases operation with
  | aggregate =>
    obtain ⟨rfl, rfl⟩ := runs_throw.mp h
    exact hs.finds (by simp)
  | arithmetic => exact runs_replacementOfArithmetic hI hs hop hspaced h hv
  | rotateLeft | rotateRight => exact runs_checkRotation hs hid h
  | constant value =>
    dsimp only at h
    split at h
    · obtain ⟨rfl, rfl⟩ := runs_pure.mp h
      exact hs.finds (by simp)
    · obtain ⟨rfl, rfl⟩ := runs_throw.mp h
      exact hs.finds (by simp)
  | input | output | negate | encode =>
    obtain ⟨rfl, rfl⟩ := runs_pure.mp h
    exact hs.finds (by simp)

end Rewriting

/-- What an operation makes of its operands is the same after one gave way to an equal one. -/
theorem Faithful.apply_redirect (hs : Faithful I scaleBits μ s) {old new : NodeId}
    (hne : old ≠ new) (hvalue : μ.value new = μ.value old) {k : NodeId} (hk : k ≠ new)
    (op : Operation) :
    I.apply scaleBits op (((s.graph.redirect old new).operands k).map μ.value) =
      I.apply scaleBits op ((s.graph.operands k).map μ.value) := by
  have hrenamed : ((s.graph.operands k).map fun x => if x = old then new else x).map μ.value =
      (s.graph.operands k).map μ.value := by
    rw [List.map_map]
    refine List.map_congr_left fun x _ => ?_
    rw [Function.comp_apply]
    split
    · next h => rw [h, hvalue]
    · rfl
  rw [← hrenamed]
  rcases hs.orderly with hports | hsymmetric
  · rw [hports.operands_redirect hs.sound hs.visible hne hk]
  · exact hsymmetric op _ _ ((hs.sound.operands_redirect_perm hs.visible hk).map μ.value)

/-- Consumers may read a node of the same value and no higher rank. -/
theorem Faithful.replaced (hs : Faithful I scaleBits μ s) {old new : NodeId} {count : Nat}
    {graph : Graph} (hr : s.graph.replaceUses old new = .ok (count, graph))
    (hrank : μ.rank new ≤ μ.rank old) (hvalue : μ.value new = μ.value old) :
    Faithful I scaleBits μ { s with graph } := by
  have hsound := hs.sound.replaceUses hr
  obtain ⟨-, -, ⟨-, -, rfl⟩ | ⟨hne, -, rfl⟩⟩ := Graph.replaceUses_eq_ok.mp hr
  · exact ⟨hsound, hs.visible, hs.orderly, hs.ranked, hs.solves, hs.typed⟩
  · refine ⟨hsound, hs.visible, hs.orderly.imp_left fun h => h.redirect old new,
      hs.ranked.redirect hs.sound hs.visible hrank, fun k hk => ?_, hs.typed⟩
    rw [← hs.solves k hk]
    by_cases hkid : k.id = new
    · rw [hkid, Graph.operands_redirect_self]
    · exact hs.apply_redirect hne hvalue hkid k.op

theorem Faithful.spread (hs : Faithful I scaleBits μ s) :
    Faithful I scaleBits ⟨fun id => 4 * μ.rank id, μ.value⟩ s :=
  ⟨hs.sound, hs.visible, hs.orderly,
    fun id o ho => Nat.mul_lt_mul_of_pos_left (hs.ranked id o ho) (by omega), hs.solves, hs.typed⟩

/-- A later state, in which every node keeps its value. -/
def Preserves (I : Interpretation V) (scaleBits : Nat) (μ : Marking V) (s s' : LoweringState) :
    Prop :=
  ∃ μ', Faithful I scaleBits μ' s' ∧
    ∀ id ∈ s.graph.ids, id ∈ s'.graph.ids ∧ μ'.value id = μ.value id

theorem Extends.preserves (h : Extends I scaleBits μ s μ' s') : Preserves I scaleBits μ s s' :=
  ⟨μ', h.faithful, fun id hid => ⟨h.ids id hid, h.value id hid⟩⟩

theorem runs_step_faithful (hI : I.Lawful) (hs : Faithful I o.scaleBits μ s)
    (hid : id ∈ s.graph.ids) {r : Except CompileError Unit} (h : Runs (step o id) s r s')
    (hv : s'.graph.hidden = []) : Preserves I o.scaleBits μ s s' := by
  have hspaced : Spaced ⟨fun id => 4 * μ.rank id, μ.value⟩ s id := fun k hk => by
    have := hs.ranked id k hk
    dsimp only
    omega
  rcases runs_step h with ⟨r', h₁, -⟩ | ⟨new, s₁, h₁, ⟨count, graph, hu, -, rfl⟩ | ⟨e, hu, -, rfl⟩⟩
  · obtain ⟨μ', hext, -⟩ := runs_replacement hI hs.spread hid hspaced h₁ hv
    exact hext.preserves
  · have hv₁ : s₁.graph.hidden = [] := (Change.replaced hu).hidden_eq_nil hv
    obtain ⟨μ', hext, hnew⟩ := runs_replacement hI hs.spread hid hspaced h₁ hv₁
    obtain ⟨hmem, hrank, hvalue⟩ := hnew new rfl
    refine ⟨μ', hext.faithful.replaced hu ?_ ?_, fun k hk => ⟨?_, hext.value k hk⟩⟩
    · rw [hext.rank id hid]
      exact Nat.le_trans hrank (Nat.sub_le _ _)
    · rw [hvalue, hext.value id hid]
    · rw [show (LoweringState.mk graph _ _ _).graph.ids = s₁.graph.ids from
        Graph.ids_replaceUses hu]
      exact hext.ids k hk
  · obtain ⟨μ', hext, -⟩ := runs_replacement hI hs.spread hid hspaced h₁ hv
    exact hext.preserves

theorem runs_steps_faithful (hI : I.Lawful) {order : List NodeId}
    (hs : Faithful I o.scaleBits μ s) (hids : ∀ id ∈ order, id ∈ s.graph.ids)
    {r : Except CompileError Unit} (h : Runs (order.forM (step o)) s r s')
    (hv : s'.graph.hidden = []) : Preserves I o.scaleBits μ s s' := by
  induction order generalizing μ s with
  | nil =>
    obtain ⟨-, rfl⟩ := runs_pure.mp h
    exact hs.extends.preserves
  | cons id order ih =>
    obtain ⟨hid, hids⟩ := List.forall_mem_cons.mp hids
    rw [List.forM] at h
    rcases runs_bind h with ⟨e, h₁, -⟩ | ⟨_, s₁, h₁, hrest⟩
    · exact runs_step_faithful hI hs hid h₁ hv
    · have hv₁ := Path.hidden_eq_nil (Steps.forM (.step o) _ _ _ _ hrest) hv
      obtain ⟨μ₁, hs₁, hkeep₁⟩ := runs_step_faithful hI hs hid h₁ hv₁
      obtain ⟨μ₂, hs₂, hkeep₂⟩ := ih hs₁ (fun k hk => (hkeep₁ k (hids k hk)).1) hrest
      refine ⟨μ₂, hs₂, ?_⟩
      intro k hk
      obtain ⟨hk₁, hvalue₁⟩ := hkeep₁ k hk
      obtain ⟨hk₂, hvalue₂⟩ := hkeep₂ k hk₁
      exact ⟨hk₂, hvalue₂.trans hvalue₁⟩

end Lower

namespace Graph

open Lower

variable {I : Interpretation V} {g : Graph} {t : Typing} {o : LoweringOptions} {c : IdCounters}

/-- A lowering that hides no node, successful or not, keeps every solution of the graph. -/
theorem preserves_lower (hI : I.Lawful) (hg : g.Sound) (horderly : g.Orderly I o.scaleBits)
    (ht : g.inferTypes = .ok t) (hv : (g.lower t o c).2.graph.hidden = [])
    {rank : NodeId → Nat} (hrank : g.Ranked rank) {v : NodeId → Meaning V}
    (hsolves : g.Solves I o.scaleBits v) :
    Preserves I o.scaleBits ⟨rank, v⟩ (g.loweringStart t c) (g.lower t o c).2 := by
  have hvisible := (path_lower g t o c).hidden_eq_nil hv
  have hs : Faithful I o.scaleBits ⟨rank, v⟩ (g.loweringStart t c) :=
    ⟨hg, hvisible, horderly, hrank, hsolves, fun id hid =>
      hg.typed_of_solves hvisible hsolves hrank (typed_of_inferTypes hg ht) hid⟩
  obtain ⟨order, ho, -⟩ := Except.bind_eq_ok.mp ht
  have h := runs_lower g t o c
  unfold everyNode at h
  rw [runs_get_bind, show (g.loweringStart t c).graph.forwardOrder = .ok order from ho,
    runs_bind_of_ok (runs_ofGraph_ok order)] at h
  exact runs_steps_faithful hI hs (fun id hid => (forwardOrder_perm ho).mem_iff.mp hid) h hv

theorem lower_wellformed (hg : g.Wellformed) (ht : g.inferTypes = .ok t)
    (hv : (g.lower t o c).2.graph.hidden = []) :
    (g.lower t o c).2.graph.Wellformed ∧ ∃ rank, (g.lower t o c).2.graph.Ranked rank := by
  -- Any lawful interpretation will do here.
  let I : Interpretation Unit := ⟨fun _ _ => (), fun _ => (), fun _ _ _ => (), fun _ => (),
    fun _ _ => (), fun _ _ => (), fun _ _ _ => (), fun _ _ _ => (), fun _ _ => ()⟩
  obtain ⟨rank, hrank⟩ := hg.toSound.exists_rank hg.visible ht
  obtain ⟨v, hsolves⟩ := exists_solves I o.scaleBits hg hrank
  obtain ⟨μ, hs, -⟩ := preserves_lower (c := c) ⟨fun _ _ => rfl, fun _ _ => rfl, fun _ _ => rfl⟩
    hg.toSound (.inl hg.ports) ht hv hrank hsolves
  exact ⟨(path_lower g t o c).wellformed hg hv, _, hs.ranked⟩

theorem lower_denotes (hI : I.Lawful) (hg : g.Wellformed) (ht : g.inferTypes = .ok t)
    (hv : (g.lower t o c).2.graph.hidden = []) {id : NodeId} (hid : id ∈ g.ids) :
    ∃ d, g.Denotes I o.scaleBits id d ∧ (g.lower t o c).2.graph.Denotes I o.scaleBits id d := by
  obtain ⟨rank, hrank⟩ := hg.toSound.exists_rank hg.visible ht
  obtain ⟨v, hsolves⟩ := exists_solves I o.scaleBits hg hrank
  obtain ⟨μ, hs, hkeep⟩ := preserves_lower hI hg.toSound (.inl hg.ports) ht hv hrank hsolves
  obtain ⟨hid', hvalue⟩ := hkeep id hid
  refine ⟨_, hsolves.denotes hg hrank hid, ?_⟩
  rw [show v id = μ.value id from hvalue.symm]
  exact hs.solves.denotes ((path_lower g t o c).wellformed hg hv) hs.ranked hid'

/-- Lowering keeps what the declared outputs denote, the declarations, and acyclicity, as long as
the counter does not wrap around. This is said of the graph that the lowering leaves behind, also
when it fails. -/
theorem lower_preserves_outputs (hI : I.Lawful) (hg : g.Built c) {order : List NodeId}
    (hacyclic : g.forwardOrder = .ok order) (o : LoweringOptions) :
    ∃ t, g.inferTypes = .ok t ∧
      (c.peek g.space + ((g.lower t o c).2.graph.nodeCount - g.nodeCount) < NodeId.bound →
        (g.lower t o c).2.graph.inputs = g.inputs ∧ (g.lower t o c).2.graph.outputs = g.outputs ∧
          (∃ order', (g.lower t o c).2.graph.forwardOrder = .ok order') ∧
          ∀ name id, (name, id) ∈ g.outputs.entries →
            ∃ d, g.Denotes I o.scaleBits id d ∧
              (g.lower t o c).2.graph.Denotes I o.scaleBits id d) := by
  obtain ⟨t, ht⟩ := hg.wellformed.inferTypes_ok hacyclic
  refine ⟨t, ht, ?_⟩
  intro hroom
  have hpath := path_lower g t o c
  have hv := (Path.built hpath hg hroom).wellformed.visible
  obtain ⟨hwf, hranked⟩ := lower_wellformed hg.wellformed ht hv
  exact ⟨hpath.tables_eq.1, hpath.tables_eq.2, (forwardOrder_ok_iff hwf).mpr hranked,
    fun name id hid => lower_denotes hI hg.wellformed ht hv
      (mem_ids_of_mem_nodes (hg.wellformed.outputNodes name id hid))⟩

/-- The difference `z = y - x` of an encrypted `x` and a raw `y`. -/
def mixedDifference : Graph :=
  { blank "g" 1 ⟨0⟩ with
    nodes :=
      [⟨0, .input "x" .cipher⟩, ⟨1, .input "y" .raw⟩, ⟨2, .arithmetic .sub⟩, ⟨3, .output "z"⟩]
    edges := [⟨⟨2, 0⟩, ⟨3, 0⟩, 0⟩, ⟨⟨0, 0⟩, ⟨2, 0⟩, 1⟩, ⟨⟨1, 0⟩, ⟨2, 0⟩, 0⟩]
    inputs := ⟨[("x", 0), ("y", 1)]⟩
    outputs := ⟨[("z", 3)]⟩ }

theorem built_mixedDifference : mixedDifference.Built ⟨[4]⟩ := by
  have hcreate : create "g" 1 ⟨0⟩ = .ok (blank "g" 1 ⟨0⟩) := rfl
  have h₀ : Built (blank "g" 1 ⟨0⟩) ⟨[0]⟩ := .create hcreate (by decide)
  have h₁ := h₀.extend (by decide) (.input "x" .cipher) [] rfl (by simp) rfl
  have h₂ := h₁.extend (by decide) (.input "y" .raw) [] rfl (by simp) rfl
  have h₃ := h₂.extend (by decide) (.arithmetic .sub) [1, 0] rfl (by decide) trivial
  exact h₃.extend (by decide) (.output "z") [2] rfl (by decide) rfl

def ones : Interpretation Int where
  input _ _ := 1
  constant _ := 1
  encode _ _ x := x
  negate d := -d.value
  rotateLeft _ d := d.value
  rotateRight _ d := d.value
  clear _ a b := a.value + b.value
  encrypted
    | .add, x, y => x + y
    | .sub, x, y => x - y
    | .mul, x, y => x * y
    | .div, x, y => x / y
  aggregate _ _ := 0

theorem ones_lawful : ones.Lawful where
  add_comm := Int.add_comm
  mul_comm := Int.mul_comm
  sub_eq x y := by
    change x - y = -y + x
    omega

theorem lower_preserves_outputs_mixedDifference :
    ∃ t, mixedDifference.inferTypes = .ok t ∧
      ∃ d, mixedDifference.Denotes ones 60 3 d ∧
        (mixedDifference.lower t ⟨.ckks, 60⟩ ⟨[4]⟩).2.graph.Denotes ones 60 3 d := by
  have horder : mixedDifference.forwardOrder = .ok [0, 1, 2, 3] := by cbv
  obtain ⟨t, ht, h⟩ := lower_preserves_outputs ones_lawful built_mixedDifference horder ⟨.ckks, 60⟩
  have htypes : mixedDifference.inferTypes =
      .ok ⟨[(0, .cipher), (1, .raw), (2, .cipher), (3, .cipher)]⟩ := by cbv
  cases ht.symm.trans htypes
  have hcount : (mixedDifference.lower ⟨[(0, .cipher), (1, .raw), (2, .cipher), (3, .cipher)]⟩
      ⟨.ckks, 60⟩ ⟨[4]⟩).2.graph.nodeCount = 7 := by cbv
  obtain ⟨-, -, -, houtputs⟩ := h (by rw [hcount]; decide)
  exact ⟨_, ht, houtputs "z" 3 (by decide)⟩

end Graph

end CipherGraph

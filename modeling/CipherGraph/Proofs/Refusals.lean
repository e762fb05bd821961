import CipherGraph.Command.Calculation
import CipherGraph.Proofs.CompiledIds
import CipherGraph.Proofs.NormalForm

/-! # What a compilation refuses

A compilation fails for the faults that validation lists, or else at the first node in dependency
order that the scheme has no form for, and for no other reason: what a lowering rewrites keeps the
classes of the nodes still to be visited, so none of them comes to be refused or accepted on the
way.
-/

namespace CipherGraph

open Command Lower

namespace SchemeKind

variable {kind : SchemeKind} {value : Constant} {op : Operation} {classes : List ValueClass}

theorem holds_iff : kind.holds value = true ↔
    ∃ slots : List (schemeOf kind).Slot, Slot.ofConstant value = .ok slots := by
  cases kind with
  | ckks =>
    cases value with
    | reals | integers | byte => exact iff_of_true rfl ⟨_, rfl⟩
  | bfv =>
    cases value with
    | reals values =>
      change values.all isWhole = true ↔ ∃ slots, values.mapM Slot.integerOf = .ok slots
      rw [exists_mapM_ok_iff, List.all_eq_true]
      apply forall₂_congr
      intro x _
      cases hx : isWhole x <;> simp [Slot.integerOf, hx]
    | integers | byte => exact iff_of_true rfl ⟨_, rfl⟩
  | bitwise =>
    cases value with
    | reals values => exact iff_of_false (by rintro ⟨⟩) (by rintro ⟨_, ⟨⟩⟩)
    | integers values =>
      change (values.all fun v => 0 ≤ v && v ≤ 255) = true ↔
        ∃ slots, values.mapM Slot.byteOf = .ok slots
      rw [exists_mapM_ok_iff, List.all_eq_true]
      apply forall₂_congr
      intro v _
      have hlo : (0 : Int64) ≤ v ↔ 0 ≤ v.toInt := Int64.le_iff_toInt_le
      have hhi : v ≤ (255 : Int64) ↔ v.toInt ≤ 255 := Int64.le_iff_toInt_le
      rw [Bool.and_eq_true, decide_eq_true_eq, decide_eq_true_eq, hlo, hhi, Slot.byteOf]
      split
      · next hin => exact iff_of_true (by omega) ⟨_, rfl⟩
      · next hout => exact iff_of_false (by omega) nofun
    | byte => exact iff_of_true rfl ⟨_, rfl⟩

/-- The operations on operands of some classes that a scheme has no form for: aggregates, constants
that its slots do not take, and quotients of ciphertexts in the exact family. -/
inductive Refuses (kind : SchemeKind) : Operation → List ValueClass → Prop where
  | aggregate (op : Aggregate) (classes : List ValueClass) : Refuses kind (.aggregate op) classes
  | constant {value : Constant} (classes : List ValueClass)
      (h : ∀ slots : List (schemeOf kind).Slot, Slot.ofConstant value ≠ .ok slots) :
      Refuses kind (.constant value) classes
  | quotient {classes : List ValueClass} (hkind : kind = .bfv) (h : .cipher ∈ classes) :
      Refuses kind (.arithmetic .div) classes

theorem refuses_constant_iff :
    kind.Refuses (.constant value) classes ↔ kind.holds value = false := by
  rw [← Bool.not_eq_true, holds_iff, not_exists]
  constructor
  · rintro ⟨⟩
    assumption
  · exact .constant classes

theorem Refuses.lowers_eq_false (h : kind.Refuses op classes) : kind.lowers op = false := by
  cases h with
  | aggregate => rfl
  | constant _ h => exact refuses_constant_iff.mp (.constant classes h)
  | quotient hkind =>
    subst hkind
    rfl

/-- What is not refused has a form, unless it is arithmetic without ciphertexts. -/
theorem lowers_of_not_refuses (h : ¬ kind.Refuses op classes) :
    kind.lowers op = true ∨ ∃ a, op = .arithmetic a ∧ .cipher ∉ classes := by
  cases op with
  | aggregate a => exact absurd (.aggregate a classes) h
  | constant value =>
    rw [refuses_constant_iff, Bool.not_eq_false] at h
    exact .inl h
  | arithmetic a =>
    cases kind with
    | ckks | bitwise =>
      left
      cases a <;> rfl
    | bfv =>
      cases a with
      | add | sub | mul => exact .inl rfl
      | div => exact .inr ⟨.div, rfl, fun hmem => h (.quotient rfl hmem)⟩
  | rotateLeft | rotateRight =>
    left
    cases kind <;> rfl
  | input | output | negate | encode => exact .inl rfl

theorem mem_of_foldl_join {c : ValueClass} :
    classes.foldl ValueClass.join c = .cipher ↔ c = .cipher ∨ .cipher ∈ classes := by
  rw [← ValueClass.cipher_le, ValueClass.le_foldl_join]
  simp [ValueClass.cipher_le]

theorem Refuses.congr {classes' : List ValueClass} (h : kind.Refuses op classes)
    (heq : op.result classes' = op.result classes) : kind.Refuses op classes' := by
  cases h with
  | aggregate a => exact .aggregate a classes'
  | constant _ h => exact .constant classes' h
  | quotient hkind hmem =>
    have hresult : classes'.foldl ValueClass.join .raw = .cipher :=
      Eq.trans heq (mem_of_foldl_join.mpr (.inr hmem))
    exact .quotient hkind ((mem_of_foldl_join.mp hresult).resolve_left nofun)

end SchemeKind

namespace Lower

variable {o : LoweringOptions} {s s' : LoweringState} {rank : NodeId → Nat} {n : Node}
  {r : Except CompileError Unit}

/-- A node that is there stays, with its class, as long as nothing hides it. -/
theorem Path.kept (h : Path s s') (hs : s.graph.Reachable) (hv : s'.graph.hidden = [])
    (hn : n ∈ s.graph.nodes) :
    n ∈ s'.graph.nodes ∧ s'.types.find? n.id = s.types.find? n.id := by
  induction h with
  | refl => exact ⟨hn, rfl⟩
  | @tail t _ hp hc ih =>
    obtain ⟨hn, htype⟩ := ih (hc.hidden_eq_nil hv)
    have ht := Path.reachable hp hs
    cases hc with
    | @emitted op operands id _ _ type hop h =>
      obtain ⟨-, -, -, -, -, rfl⟩ := Graph.makeNode_ok.mp h
      rw [Graph.declare_of_isOriginal hop] at hv ⊢
      have hid : id ∉ t.graph.ids := (Graph.grow_hidden_eq_nil.mp hv).1
      refine ⟨Graph.mem_nodes_grow_of_mem ht.sound hid hn, ?_⟩
      rw [← htype]
      apply OrderedMap.find?_insert_of_ne
      rintro rfl
      exact hid (Graph.mem_ids_of_mem_nodes hn)
    | reported => exact ⟨hn, htype⟩
    | replaced h =>
      obtain ⟨_, rfl⟩ := Graph.replaceUses_frame h
      exact ⟨hn, htype⟩

theorem runs_step_refused (hs : Legible rank s) (hn : n ∈ s.graph.nodes)
    (hrefused : o.scheme.Refuses n.op (s.graph.classes s.types n.id))
    (h : Runs (step o n.id) s r s') :
    r = .error (.unsupported n.id n.op.name o.scheme) ∧ s' = s := by
  obtain ⟨id, op⟩ := n
  have hthrow : Runs (replacement? o id) s (.error (.unsupported id op.name o.scheme)) s := by
    unfold replacement?
    rw [runs_get_bind, (Graph.op?_eq_ok hs.sound.ascending).mpr hn,
      runs_bind_of_ok (runs_ofGraph_ok _)]
    cases op with
    | aggregate a => exact runs_throw.mpr ⟨rfl, rfl⟩
    | constant value =>
      have hheld := SchemeKind.refuses_constant_iff.mp hrefused
      dsimp only
      rw [if_neg (by simp [hheld])]
      exact runs_throw.mpr ⟨rfl, rfl⟩
    | arithmetic a =>
      obtain ⟨lhs, rhs, b, c, hoperands, hb, hc, hclasses⟩ :=
        Graph.exists_arithmetic_operands hs.sound hs.visible hs.typed hn
      cases hrefused with
      | quotient hkind hmem =>
        have hcipher : (b.isCipher || c.isCipher) = true := by
          rw [hclasses] at hmem
          rcases List.mem_pair.mp hmem with rfl | rfl <;> simp [ValueClass.isCipher]
        apply (runs_replacementOfArithmetic_iff hoperands hb hc).mpr
        rw [if_pos (by simp [hcipher, hkind, SchemeKind.capabilities])]
        exact runs_throw.mpr ⟨rfl, rfl⟩
    | _ => cases hrefused
  have hstep : Runs (step o id) s (.error (.unsupported id op.name o.scheme)) s := by
    unfold step
    exact runs_bind_error.mpr (.inl hthrow)
  exact h.unique hstep

theorem runs_step_of_none {id : NodeId} (h : Runs (replacement? o id) s (.ok none) s) :
    Runs (step o id) s (.ok ()) s := by
  unfold step
  rw [runs_bind_of_ok h]
  exact runs_pure.mpr ⟨rfl, rfl⟩

theorem runs_step_clear (hs : Legible rank s) {id : NodeId} {op : Arithmetic}
    (hn : ⟨id, .arithmetic op⟩ ∈ s.graph.nodes) (hclear : .cipher ∉ s.graph.classes s.types id) :
    Runs (step o id) s (.ok ()) s := by
  obtain ⟨lhs, rhs, a, b, hoperands, ha, hb, hclasses⟩ :=
    Graph.exists_arithmetic_operands hs.sound hs.visible hs.typed hn
  have hcipher : (a.isCipher || b.isCipher) = false := by
    rw [hclasses, List.mem_pair, not_or] at hclear
    simp [ValueClass.isCipher, Ne.symm hclear.1, Ne.symm hclear.2]
  apply runs_step_of_none
  unfold replacement?
  rw [runs_get_bind, (Graph.op?_eq_ok hs.sound.ascending).mpr hn,
    runs_bind_of_ok (runs_ofGraph_ok _)]
  apply (runs_replacementOfArithmetic_iff hoperands ha hb).mpr
  rw [if_neg (by simp [hcipher]), if_neg (by simp [hcipher])]
  exact runs_pure.mpr ⟨rfl, rfl⟩

theorem runs_step_accepted (hs : Legible rank s) (hn : n ∈ s.graph.nodes)
    (haccepted : ¬ o.scheme.Refuses n.op (s.graph.classes s.types n.id))
    (h : Runs (step o n.id) s r s') (hv : s'.graph.hidden = []) :
    r = .ok () ∧ ∃ rank', Legible rank' s' := by
  rcases SchemeKind.lowers_of_not_refuses haccepted with hop | ⟨a, hop, hclear⟩
  · exact runs_step_legible hs hn hop h hv
  · obtain ⟨id, _⟩ := n
    cases hop
    obtain ⟨rfl, rfl⟩ := h.unique (runs_step_clear hs hn hclear)
    exact ⟨rfl, rank, hs⟩

/-- The first node in an order that a scheme has no form for. -/
structure FirstRefused (kind : SchemeKind) (g : Graph) (t : Typing) (order : List NodeId)
    (n : Node) : Prop where
  mem : n ∈ g.nodes
  refused : kind.Refuses n.op (g.classes t n.id)
  first : ∃ before after, order = before ++ n.id :: after ∧
    ∀ k ∈ g.nodes, k.id ∈ before → ¬ kind.Refuses k.op (g.classes t k.id)

theorem FirstRefused.unique {kind : SchemeKind} {g : Graph} {t : Typing} {order : List NodeId}
    {n n' : Node} (hg : g.Sound) (h : FirstRefused kind g t order n)
    (h' : FirstRefused kind g t order n') : n = n' := by
  obtain ⟨before, after, horder, hbefore⟩ := h.first
  obtain ⟨before', after', horder', hbefore'⟩ := h'.first
  have hid : n.id = n'.id := by
    rcases List.append_eq_append_iff.mp (horder.symm.trans horder') with
      ⟨between, rfl, hrest⟩ | ⟨between, rfl, hrest⟩
    · cases between with
      | nil => exact (List.cons.inj hrest).1
      | cons id between =>
        have hmem : n.id ∈ before ++ id :: between := by simp [(List.cons.inj hrest).1]
        exact absurd h.refused (hbefore' n h.mem hmem)
    · cases between with
      | nil => exact (List.cons.inj hrest).1.symm
      | cons id between =>
        have hmem : n'.id ∈ before' ++ id :: between := by simp [(List.cons.inj hrest).1]
        exact absurd h'.refused (hbefore n' h'.mem hmem)
  exact hg.node_eq h.mem h'.mem hid

/-- The first node refused later is the first one now, if those in between are not refused. -/
theorem FirstRefused.cons {kind : SchemeKind} {g g' : Graph} {t t' : Typing}
    {order : List NodeId} {id : NodeId} (hg' : g'.Sound) (hpending : ∀ k ∈ order, k ∈ g.ids)
    (hkept : ∀ k ∈ g.nodes, k ∈ g'.nodes ∧ (kind.Refuses k.op (g'.classes t' k.id) ↔
      kind.Refuses k.op (g.classes t k.id)))
    (haccepted : ∀ k ∈ g.nodes, k.id = id → ¬ kind.Refuses k.op (g.classes t k.id))
    (h : FirstRefused kind g' t' order n) : FirstRefused kind g t (id :: order) n := by
  obtain ⟨before, after, horder, hbefore⟩ := h.first
  -- The node was there from the start, since it was still to be visited.
  have hold : n ∈ g.nodes := by
    obtain ⟨k, hk, heq⟩ := List.mem_map.mp (hpending n.id (by simp [horder]))
    exact hg'.node_eq (hkept k hk).1 h.mem heq ▸ hk
  refine ⟨hold, (hkept n hold).2.mp h.refused, id :: before, after, ?_, ?_⟩
  · rw [horder, List.cons_append]
  · intro k hk hmem
    rcases List.mem_cons.mp hmem with heq | hmem
    · exact haccepted k hk heq
    · exact mt (hkept k hk).2.mpr (hbefore k (hkept k hk).1 hmem)

section Runs

variable {kind : SchemeKind} {rest rest' dropped dropped' order : List NodeId}

/-- What is still to be visited is refused now if it was refused before. -/
theorem Progress.refuses_iff (hs : Progress kind rest dropped s)
    (hs' : Progress kind rest' dropped' s') (hn : n ∈ s.graph.nodes)
    (hkept : n ∈ s'.graph.nodes ∧ s'.types.find? n.id = s.types.find? n.id) :
    kind.Refuses n.op (s'.graph.classes s'.types n.id) ↔
      kind.Refuses n.op (s.graph.classes s.types n.id) := by
  have hresult : n.op.result (s'.graph.classes s'.types n.id) =
      n.op.result (s.graph.classes s.types n.id) := by
    apply Option.some.inj
    rw [← (Graph.typed_iff hs'.sound hs'.visible).mp hs'.typed n hkept.1,
      ← (Graph.typed_iff hs.sound hs.visible).mp hs.typed n hn, hkept.2]
  exact ⟨fun h => h.congr hresult.symm, fun h => h.congr hresult⟩

/-- Visits succeed unless a node is refused, and then the first such node is named. Either way they
end between two visits. -/
theorem runs_steps_refused (hlegible : Legible rank s) (hs : Progress o.scheme order dropped s)
    (hreach : s.graph.Reachable) (h : Runs (order.forM (step o)) s r s')
    (hv : s'.graph.hidden = []) :
    (∃ rank' rest dropped', Legible rank' s' ∧ Progress o.scheme rest dropped' s') ∧
      (r = .ok () ∧ (∀ n ∈ s.graph.nodes, n.id ∈ order →
          ¬ o.scheme.Refuses n.op (s.graph.classes s.types n.id)) ∨
        ∃ n, FirstRefused o.scheme s.graph s.types order n ∧
          r = .error (.unsupported n.id n.op.name o.scheme)) := by
  induction order generalizing rank dropped s with
  | nil =>
    obtain ⟨rfl, rfl⟩ := runs_pure.mp h
    exact ⟨⟨rank, [], dropped, hlegible, hs⟩,
      .inl ⟨rfl, fun _ _ hmem => absurd hmem List.not_mem_nil⟩⟩
  | cons id order ih =>
    obtain ⟨n, hn, rfl⟩ := List.mem_map.mp (hs.pending id List.mem_cons_self)
    rw [List.forM] at h
    have honly {k : Node} (hk : k ∈ s.graph.nodes) (heq : k.id = n.id) : k = n :=
      hlegible.sound.node_eq hk hn heq
    by_cases hrefused : o.scheme.Refuses n.op (s.graph.classes s.types n.id)
    · have hnone : ∀ k ∈ s.graph.nodes, k.id ∈ [] →
          ¬ o.scheme.Refuses k.op (s.graph.classes s.types k.id) :=
        fun _ _ hmem => absurd hmem List.not_mem_nil
      rcases runs_bind h with ⟨e, h₁, rfl⟩ | ⟨_, s₁, h₁, -⟩
      · obtain ⟨herror, rfl⟩ := runs_step_refused hlegible hn hrefused h₁
        cases herror
        exact ⟨⟨rank, n.id :: order, dropped, hlegible, hs⟩,
          .inr ⟨n, ⟨hn, hrefused, [], order, rfl, hnone⟩, rfl⟩⟩
      · cases (runs_step_refused hlegible hn hrefused h₁).1
    · rcases runs_bind h with ⟨e, h₁, -⟩ | ⟨_, s₁, h₁, hrest⟩
      · cases (runs_step_accepted hlegible hn hrefused h₁ hv).1
      · have hpath : Path s s₁ := Steps.step _ _ _ _ _ h₁
        have hv₁ : s₁.graph.hidden = [] :=
          Path.hidden_eq_nil (Steps.forM (.step o) _ _ _ _ hrest) hv
        obtain ⟨-, rank₁, hlegible₁⟩ := runs_step_accepted hlegible hn hrefused h₁ hv₁
        obtain ⟨dropped₁, hs₁⟩ := runs_step_progress hs h₁ hv₁
        have hkept (k : Node) (hk : k ∈ s.graph.nodes) : k ∈ s₁.graph.nodes ∧
            (o.scheme.Refuses k.op (s₁.graph.classes s₁.types k.id) ↔
              o.scheme.Refuses k.op (s.graph.classes s.types k.id)) := by
          have h := hpath.kept hreach hv₁ hk
          exact ⟨h.1, hs.refuses_iff hs₁ hk h⟩
        have hfirst (k : Node) (hk : k ∈ s.graph.nodes) (heq : k.id = n.id) :
            ¬ o.scheme.Refuses k.op (s.graph.classes s.types k.id) := honly hk heq ▸ hrefused
        obtain ⟨hdone, hends⟩ := ih hlegible₁ hs₁ (hpath.reachable hreach) hrest
        refine ⟨hdone, ?_⟩
        rcases hends with ⟨hr, hall⟩ | ⟨m, hm, hr⟩
        · refine .inl ⟨hr, fun k hk hmem => ?_⟩
          rcases List.mem_cons.mp hmem with heq | hmem
          · exact hfirst k hk heq
          · exact mt (hkept k hk).2.mpr (hall k (hkept k hk).1 hmem)
        · exact .inr ⟨m, hm.cons hlegible₁.sound
            (fun k hk => hs.pending k (List.mem_cons_of_mem _ hk)) hkept hfirst, hr⟩

end Runs

end Lower

namespace Graph

variable {g : Graph} {t first : Typing} {c c' : IdCounters} {order : List NodeId}
  {o : CompileOptions} {r : Except CompileError CompiledGraph}

/-- A valid graph is lowered, unless a node is refused. It stays acyclic and typed. -/
theorem lower_refused {o : LoweringOptions} (hg : g.Reachable) (hvalid : g.validate = [])
    (ht : g.inferTypes = .ok t) (ho : g.forwardOrder = .ok order)
    (hv : (g.lower t o c).2.graph.hidden = []) :
    ((g.lower t o c).2.graph.Acyclic ∧
        (g.lower t o c).2.graph.Typed (g.lower t o c).2.types) ∧
      ((g.lower t o c).1 = .ok () ∧
          (∀ n ∈ g.nodes, ¬ o.scheme.Refuses n.op (g.classes t n.id)) ∨
        ∃ n, FirstRefused o.scheme g t order n ∧
          (g.lower t o c).1 = .error (.unsupported n.id n.op.name o.scheme)) := by
  have hvisible := (path_lower g t o c).hidden_eq_nil hv
  have hperm := forwardOrder_perm ho
  obtain ⟨rank, hlegible⟩ := legible_start hg.sound hvisible ht c
  have hs := progress_start hg.sound hvisible hvalid ht ho o.scheme c
  have h := runs_lower g t o c
  unfold everyNode at h
  rw [runs_get_bind, show (g.loweringStart t c).graph.forwardOrder = .ok order from ho,
    runs_bind_of_ok (Lower.runs_ofGraph_ok order)] at h
  obtain ⟨⟨rank', rest, dropped, hdone, hprogress⟩, hends⟩ :=
    runs_steps_refused hlegible hs hg h hv
  refine ⟨⟨?_, hprogress.typed⟩, hends.imp_left (And.imp_right fun hall n hn => ?_)⟩
  · rw [← hdone.sound.forwardOrder_iff_acyclic hv]
    exact (hdone.sound.forwardOrder_ok_iff hv).mpr ⟨rank', hdone.ranked⟩
  · exact hall n hn (hperm.mem_iff.mpr (mem_ids_of_mem_nodes hn))

theorem compile_of_lower_error {e : CompileError} (hvalid : g.validate = [])
    (hfirst : g.inferTypes = .ok first)
    (herror : (g.lower first ⟨o.scheme, o.scaleBits⟩ c).1 = .error e)
    (h : Runs (g.compile o) c r c') : r = .error e := by
  unfold compile at h
  simp only [hvalid] at h
  rw [runs_bind_of_ok (runs_compilingOfGraph.mpr ⟨hfirst, rfl⟩)] at h
  have hlowered : Runs (g.lowered first ⟨o.scheme, o.scaleBits⟩) c (.error e)
      (g.lower first ⟨o.scheme, o.scaleBits⟩ c).2.counters :=
    runs_lowered_iff.mpr ⟨by rw [herror]; rfl, rfl⟩
  exact (h.unique (runs_bind_error.mpr (.inl hlowered))).1

theorem compile_of_lower_ok (hg : g.Reachable) (hvalid : g.validate = [])
    (hfirst : g.inferTypes = .ok first)
    (hok : (g.lower first ⟨o.scheme, o.scaleBits⟩ c).1 = .ok ())
    (hacyclic : (g.lower first ⟨o.scheme, o.scaleBits⟩ c).2.graph.Acyclic)
    (hv : (g.lower first ⟨o.scheme, o.scaleBits⟩ c).2.graph.hidden = [])
    (h : Runs (g.compile o) c r c') : ∃ cg, r = .ok cg := by
  have hreach := (path_lower g first ⟨o.scheme, o.scaleBits⟩ c).reachable hg
  unfold compile at h
  simp only [hvalid] at h
  rw [runs_bind_of_ok (runs_compilingOfGraph.mpr ⟨hfirst, rfl⟩)] at h
  set s := (g.lower first ⟨o.scheme, o.scaleBits⟩ c).2 with hs
  have hremoved : s.graph.removeDead.2.Reachable := .removeDead hreach
  have hvisible : s.graph.removeDead.2.hidden = [] := hv
  obtain ⟨types, requirements, sig, htypes, hrequirements, hsig⟩ := hacyclic.removeDead.analyzed o
    hremoved.sound hvisible (hremoved.named hvisible)
  rw [runs_bind_of_ok (runs_lowered_iff.mpr ⟨by rw [hok]; rfl, rfl⟩)] at h
  dsimp only at h
  rw [← hs, runs_bind_of_ok (runs_compilingOfGraph.mpr ⟨htypes, rfl⟩),
    runs_bind_of_ok (runs_compilingOfGraph.mpr ⟨hrequirements, rfl⟩),
    runs_bind_of_ok (runs_compilingOfGraph.mpr ⟨hsig, rfl⟩)] at h
  exact ⟨_, (runs_pure.mp h).1⟩

theorem compile_cases (hg : g.Reachable)
    (hlow : g.validate = [] → (g.lowering o c).graph.hidden = [])
    (h : Runs (g.compile o) c r c') :
    (g.validate ≠ [] ∧ r = .error (.typeFaults g.validate)) ∨
      g.validate = [] ∧ ∃ order types, g.forwardOrder = .ok order ∧ g.inferTypes = .ok types ∧
        (((∃ cg, r = .ok cg) ∧ ∀ n ∈ g.nodes, ¬ o.scheme.Refuses n.op (g.classes types n.id)) ∨
          ∃ n, FirstRefused o.scheme g types order n ∧
            r = .error (.unsupported n.id n.op.name o.scheme)) := by
  by_cases hvalid : g.validate = []
  · obtain ⟨types, htypes⟩ := inferTypes_of_validate hvalid
    obtain ⟨order, ho, -⟩ := Except.bind_eq_ok.mp htypes
    have hv := hlow hvalid
    rw [lowering_eq htypes] at hv
    refine .inr ⟨hvalid, order, types, ho, htypes, ?_⟩
    obtain ⟨⟨hacyclic, -⟩, hends⟩ :=
      lower_refused (o := ⟨o.scheme, o.scaleBits⟩) hg hvalid htypes ho hv
    rcases hends with ⟨hok, hall⟩ | ⟨n, hn, herror⟩
    · exact .inl ⟨compile_of_lower_ok hg hvalid htypes hok hacyclic hv h, hall⟩
    · exact .inr ⟨n, hn, compile_of_lower_error hvalid htypes herror h⟩
  · unfold compile at h
    split at h
    · next hnil => exact absurd hnil hvalid
    · exact .inl ⟨hvalid, (runs_throw.mp h).1⟩

def quotient (value : Int64) : Graph :=
  { Graph.blank "q" 1 ⟨0⟩ with
    nodes := [⟨0, .input "x" .cipher⟩, ⟨1, .constant (.integers [value])⟩, ⟨2, .arithmetic .div⟩,
      ⟨3, .output "y"⟩]
    edges := [⟨⟨2, 0⟩, ⟨3, 0⟩, 0⟩, ⟨⟨1, 0⟩, ⟨2, 0⟩, 1⟩, ⟨⟨0, 0⟩, ⟨2, 0⟩, 0⟩]
    inputs := ⟨[("x", 0)]⟩
    outputs := ⟨[("y", 3)]⟩ }

theorem drawn_quotient (value : Int64) : (quotient value).Drawn ⟨[4]⟩ := by
  have hcreate : Graph.create "q" 1 ⟨0⟩ = .ok (.blank "q" 1 ⟨0⟩) := rfl
  have h₀ : Drawn (blank "q" 1 ⟨0⟩) ⟨[0]⟩ := .create hcreate (by decide)
  have h₁ := h₀.extend (by decide) (.input "x" .cipher) [] rfl (by simp) rfl
  have h₂ := h₁.extend (by decide) (.constant (.integers [value])) [] rfl (by simp) trivial
  have hroom : ∀ id < 4, id + 1 < NodeId.bound := by decide
  have h₃ := h₂.extend (hroom 2 (by decide)) (.arithmetic .div) [0, 1] rfl (fun _ ho => ho) trivial
  exact h₃.extend (hroom 3 (by decide)) (.output "y") [2] rfl
    (List.forall_mem_singleton.mpr (show 2 ∈ [0, 1, 2] by decide)) rfl

end Graph

end CipherGraph

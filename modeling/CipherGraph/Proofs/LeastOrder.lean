import CipherGraph.Proofs.Acyclicity

/-! # The least dependency order

The smallest node that is ready always comes next, which makes the order lexicographically the
least of all dependency orders. Where no node is ready, those that are left are the nodes on a
cycle and downstream of one.
-/

namespace CipherGraph.Graph

open Relation

variable {g : Graph} {order other : List NodeId}

/-- Every node once, after all its operands. -/
structure DependencyOrder (g : Graph) (order : List NodeId) : Prop where
  nodup : order.Nodup
  complete : ∀ id, id ∈ order ↔ id ∈ g.ids
  follows : ∀ before id after, order = before ++ id :: after → ∀ o ∈ g.operands id, o ∈ before

theorem DependencyOrder.perm (h : g.DependencyOrder order) (hg : g.Sound) : order.Perm g.ids :=
  (List.perm_ext_iff_of_nodup h.nodup hg.nodup).mpr h.complete

theorem DependencyOrder.ordered (h : g.DependencyOrder order) : g.Ordered order := by
  have hsuffix : ∀ after before, order = before ++ after → g.Ordered after := by
    intro after
    induction after with
    | nil => exact fun _ _ => .nil
    | cons id after ih =>
      intro before heq
      apply Ordered.cons
      · intro o ho hmem
        have hbefore := h.follows before id after heq o ho
        exact (List.nodup_append.mp (heq ▸ h.nodup)).2.2 o hbefore o hmem rfl
      · exact ih (before ++ [id]) (by simpa using heq)
  exact hsuffix order [] rfl

theorem Sound.dependencyOrder (h : g.Sound) (hv : g.hidden = []) (hperm : order.Perm g.ids)
    (ho : g.Ordered order) : g.DependencyOrder order where
  nodup := hperm.nodup_iff.mpr h.nodup
  complete _ := hperm.mem_iff
  follows before id after heq o hread := by
    subst heq
    have hafter : o ∉ id :: after := by
      cases ho.of_append with
      | cons hfirst _ => exact hfirst o hread
    have hmem := hperm.mem_iff.mpr (h.mem_ids_of_mem_operands hv hread)
    exact (List.mem_append.mp hmem).resolve_right hafter

/-- An order of the nodes that wait begins with one that is ready, and the least of those has been
taken. -/
theorem emit_least (h : g.Sound) (hv : g.hidden = []) {ids : List NodeId}
    (hasc : ids.Pairwise (· < ·)) (ho : g.emit (g.waitingFor ids) = .ok order)
    (hother : g.Ordered other) (hperm : other.Perm ids) (hne : other ≠ order) :
    List.Lex (· < ·) order other := by
  induction hother generalizing ids order with
  | nil =>
    have hnil := emit_perm ho
    rw [map_fst_waitingFor, ← hperm.nil_eq] at hnil
    exact absurd hnil.eq_nil.symm hne
  | @cons first rest hfirst _ ih =>
    have hready : g.Ready ids first :=
      ⟨hperm.mem_iff.mp List.mem_cons_self, fun o hread hmem =>
        hfirst o hread (hperm.mem_iff.mpr hmem)⟩
    rcases emit_waitingFor h hv hasc with ⟨id, hleast, hnext⟩ | ⟨hnone, -⟩
    · rw [hnext] at ho
      obtain ⟨tail, htail, ho⟩ := Except.bind_eq_ok.mp ho
      cases Except.pure_eq_ok.mp ho
      rcases Nat.lt_or_eq_of_le (hleast.2 hready) with hless | rfl
      · exact .rel hless
      · apply List.Lex.cons
        refine ih (hasc.sublist List.erase_sublist) htail ?_ fun heq => hne (heq ▸ rfl)
        exact List.cons_perm_iff_perm_erase.mp hperm |>.2
    · exact absurd hready (hnone first)

/-- On a cycle, or downstream of one. -/
def Trapped (g : Graph) (id : NodeId) : Prop :=
  ∃ p, TransGen g.Feeds p p ∧ ReflTransGen g.Feeds p (g.place id)

theorem Trapped.exists_operand (h : g.Sound) (hv : g.hidden = []) {id : NodeId}
    (ht : g.Trapped id) : ∃ o ∈ g.operands id, g.Trapped o := by
  obtain ⟨p, hcycle, hpath⟩ := ht
  obtain ⟨q, hq, hlast⟩ := TransGen.tail'_iff.mp (hcycle.trans_left hpath)
  have hplace := ((mem_places_of_visible hv).mp (h.mem_places_of_feeds hlast).1).2
  rw [hplace] at hq hlast
  exact ⟨q.id, (h.mem_operands_iff hv).mpr hlast, p, hcycle, hq⟩

theorem Trapped.of_operand (h : g.Sound) (hv : g.hidden = []) {id o : NodeId}
    (ho : o ∈ g.operands id) (ht : g.Trapped o) : g.Trapped id := by
  obtain ⟨p, hcycle, hpath⟩ := ht
  exact ⟨p, hcycle, hpath.tail ((h.mem_operands_iff hv).mp ho)⟩

theorem Trapped.mem_ids (h : g.Sound) (hv : g.hidden = []) {id : NodeId} (ht : g.Trapped id) :
    id ∈ g.ids := by
  obtain ⟨o, ho, -⟩ := ht.exists_operand h hv
  exact h.mem_ids_of_operand hv ho

/-- Going from operand to operand, one never leaves nodes that all wait for each other. As the rank
falls outside of cycles, one comes to a cycle. -/
theorem trapped_of_not_ready (h : g.Sound) (hv : g.hidden = []) {ids : List NodeId}
    (hnone : ∀ k, ¬g.Ready ids k) : ∀ k ∈ ids, g.Trapped k := by
  obtain ⟨rank, hrank⟩ := g.exists_rank
  have hall : ∀ n, ∀ k ∈ ids, rank (g.place k) = n → g.Trapped k := by
    intro n
    induction n using Nat.strongRecOn with
    | ind n ih =>
      rintro k hk rfl
      obtain ⟨o, ho, hmem⟩ : ∃ o ∈ g.operands k, o ∈ ids := by
        by_contra hfree
        push Not at hfree
        exact hnone k ⟨hk, hfree⟩
      apply Trapped.of_operand h hv ho
      by_cases hcycle : TransGen g.Feeds (g.place o) (g.place o)
      · exact ⟨g.place o, hcycle, .refl⟩
      · exact ih _ (hrank _ _ ((h.mem_operands_iff hv).mp ho) hcycle) o hmem rfl
  exact fun k hk => hall _ k hk rfl

/-- No node that is taken is trapped. When none can be taken, all that are left are. -/
theorem emit_error (h : g.Sound) (hv : g.hidden = []) {ids : List NodeId} {e : GraphError}
    (hasc : ids.Pairwise (· < ·)) (hwait : ∀ k, g.Trapped k → k ∈ ids)
    (he : g.emit (g.waitingFor ids) = .error e) :
    ∃ id, e = .operandCycle id ∧ IsLeast {k | g.Trapped k} id := by
  rcases emit_waitingFor h hv hasc with ⟨id, hleast, hnext⟩ | ⟨hnone, hstop⟩
  · obtain ⟨hmem, hfree⟩ := hleast.1
    have hlt : (ids.erase id).length < ids.length := by
      rw [List.length_erase_of_mem hmem]
      exact Nat.sub_lt (List.length_pos_of_mem hmem) Nat.one_pos
    have hrest : g.emit (g.waitingFor (ids.erase id)) = .error e := by
      rw [hnext] at he
      rcases Except.bind_eq_error.mp he with he | ⟨_, _, he⟩
      · exact he
      · cases he
    refine emit_error h hv (hasc.sublist List.erase_sublist) (fun k hk => ?_) hrest
    apply (List.mem_erase_of_ne ?_).mpr (hwait k hk)
    rintro rfl
    obtain ⟨o, ho, ht⟩ := hk.exists_operand h hv
    exact hfree o ho (hwait o ht)
  · rw [hstop] at he
    cases ids with
    | nil => cases he
    | cons first rest =>
      cases he
      refine ⟨first, rfl, trapped_of_not_ready h hv hnone first List.mem_cons_self, ?_⟩
      intro k hk
      rcases List.mem_cons.mp (hwait k hk) with rfl | hmem
      · exact Nat.le_refl k
      · exact Nat.le_of_lt ((List.pairwise_cons.mp hasc).1 k hmem)
termination_by ids.length

/-- A graph that hides no node has a dependency order exactly if its edges are acyclic, and the one
that is given is the least. Otherwise the least node that no order could reach is named. -/
theorem forwardOrder_least (hg : g.Reachable) (hv : g.hidden = []) :
    ((∃ order, g.forwardOrder = .ok order) ↔ g.Acyclic) ∧
      (∀ order, g.forwardOrder = .ok order → g.DependencyOrder order ∧
        ∀ other, g.DependencyOrder other → other ≠ order → List.Lex (· < ·) order other) ∧
      (¬g.Acyclic → ∃ id, g.forwardOrder = .error (.operandCycle id) ∧
        (GraphError.operandCycle id).isInconsistency = true ∧
        IsLeast {k | k ∈ g.ids ∧ g.Trapped k} id) := by
  have h := hg.sound
  have hiff := h.forwardOrder_iff_acyclic hv
  have hwait := h.forwardOrder_eq_waitingFor hv
  refine ⟨hiff, fun order ho => ⟨?_, fun other hother hne => ?_⟩, fun hcyclic => ?_⟩
  · exact h.dependencyOrder hv (forwardOrder_perm ho) (h.forwardOrder_ordered hv ho)
  · exact emit_least h hv h.ascending (hwait ▸ ho) hother.ordered (hother.perm h) hne
  · cases he : g.forwardOrder with
    | ok order => exact absurd (hiff.mp ⟨order, he⟩) hcyclic
    | error e =>
      obtain ⟨id, rfl, ht, hleast⟩ :=
        emit_error h hv h.ascending (fun k hk => hk.mem_ids h hv) (hwait ▸ he)
      exact ⟨id, rfl, rfl, ⟨ht.mem_ids h hv, ht⟩, fun k hk => hleast hk.2⟩

/-- Two opposites of the input `x`, the opposite of the second, and an input `y`. -/
def opposites : Graph :=
  { blank "g" 1 ⟨0⟩ with
    nodes :=
      [⟨0, .input "x" .cipher⟩, ⟨1, .negate⟩, ⟨2, .negate⟩, ⟨3, .negate⟩, ⟨4, .input "y" .cipher⟩]
    edges := [⟨⟨2, 0⟩, ⟨3, 0⟩, 0⟩, ⟨⟨0, 0⟩, ⟨2, 0⟩, 0⟩, ⟨⟨0, 0⟩, ⟨1, 0⟩, 0⟩]
    inputs := ⟨[("x", 0), ("y", 4)]⟩ }

theorem assembled_opposites : opposites.Assembled := by
  have hcreate : Graph.create "g" 1 ⟨0⟩ = .ok (.blank "g" 1 ⟨0⟩) := rfl
  have h₁ := (Assembled.create hcreate).extend ⟨[0]⟩ (.input "x" .cipher) [] rfl (by simp) rfl
  have h₂ := h₁.extend ⟨[1]⟩ .negate [0] rfl (by decide) trivial
  have h₃ := h₂.extend ⟨[2]⟩ .negate [0] rfl (by decide) trivial
  have h₄ := h₃.extend ⟨[3]⟩ .negate [2] rfl (by decide) trivial
  exact h₄.extend ⟨[4]⟩ (.input "y" .cipher) [] rfl (by simp) rfl

/-- With `y` in place of `x` the opposites wait for a node that comes after them. With its own
opposite in place of `x` the second one waits for itself, and the first for the second. -/
theorem forwardOrder_least_opposites :
    ((opposites.redirect 0 4).hidden = [] ∧
      (opposites.redirect 0 4).DependencyOrder [0, 4, 1, 2, 3] ∧
      ∀ other, (opposites.redirect 0 4).DependencyOrder other → other ≠ [0, 4, 1, 2, 3] →
        List.Lex (· < ·) [0, 4, 1, 2, 3] other) ∧
    ((opposites.redirect 0 3).hidden = [] ∧
      (opposites.redirect 0 3).forwardOrder = .error (.operandCycle 1) ∧
      IsLeast {k | k ∈ (opposites.redirect 0 3).ids ∧ (opposites.redirect 0 3).Trapped k} 1) := by
  have hfirst := assembled_opposites.redirect 0 4 (by decide) (by decide) (by decide)
  have hsecond := assembled_opposites.redirect 0 3 (by decide) (by decide) (by decide)
  have horder : (opposites.redirect 0 4).forwardOrder = .ok [0, 4, 1, 2, 3] := by cbv
  have hcycle : (opposites.redirect 0 3).forwardOrder = .error (.operandCycle 1) := by
    with_unfolding_all rfl
  have hself : ¬(opposites.redirect 0 3).Acyclic := by
    have hup : (opposites.redirect 0 3).Feeds ⟨2, 0⟩ ⟨3, 0⟩ :=
      ⟨⟨⟨2, 0⟩, ⟨3, 0⟩, 0⟩, by decide, rfl, rfl⟩
    have hdown : (opposites.redirect 0 3).Feeds ⟨3, 0⟩ ⟨2, 0⟩ :=
      ⟨⟨⟨3, 0⟩, ⟨2, 0⟩, 0⟩, by decide, rfl, rfl⟩
    exact fun h => h ⟨2, 0⟩ (.tail (.single hup) hdown)
  obtain ⟨-, hleast, -⟩ := forwardOrder_least hfirst.reachable rfl
  obtain ⟨-, -, hstops⟩ := forwardOrder_least hsecond.reachable rfl
  obtain ⟨id, he, -, htrapped⟩ := hstops hself
  cases hcycle.symm.trans he
  exact ⟨⟨rfl, hleast _ horder⟩, rfl, hcycle, htrapped⟩

/-- The edge from the node that is hidden is counted and never worked off. -/
theorem forwardOrder_overtakenInput : overtakenInput.Reachable ∧
    overtakenInput.forwardOrder = .error (.operandCycle 1) ∧
    ¬((∃ order, overtakenInput.forwardOrder = .ok order) ↔ overtakenInput.Acyclic) := by
  have hcycle : overtakenInput.forwardOrder = .error (.operandCycle 1) := by with_unfolding_all rfl
  refine ⟨assembled_overtakenInput.reachable, hcycle, fun h => ?_⟩
  obtain ⟨order, ho⟩ := h.mpr acyclic_overtakenInput
  cases hcycle.symm.trans ho

end CipherGraph.Graph

import CipherGraph.Graph.Order
import CipherGraph.Proofs.Wellformed
import Mathlib.Order.Bounds.Defs
import Mathlib.Order.Nat

/-! # Acyclic graphs

A dependency order lists every node once. A graph that hides no node has one exactly if its nodes
can be ranked so that every node ranks above its operands.
-/

namespace CipherGraph.Graph

variable {g : Graph}

theorem takeReady_eq_some {w rest : Waiting} {id : NodeId} (h : takeReady w = some (id, rest)) :
    ∃ w₁ w₂, w = w₁ ++ (id, 0) :: w₂ ∧ rest = w₁ ++ w₂ ∧ ∀ e ∈ w₁, e.2 ≠ 0 := by
  fun_induction takeReady w generalizing rest with
  | case1 => cases h
  | case2 i w =>
    cases h
    exact ⟨[], w, rfl, rfl, by simp⟩
  | case3 i n w ih =>
    obtain ⟨⟨r, rest'⟩, hr, he⟩ := Option.map_eq_some_iff.mp h
    cases he
    obtain ⟨w₁, w₂, rfl, rfl, hbusy⟩ := ih hr
    exact ⟨(i, n + 1) :: w₁, w₂, rfl, rfl, List.forall_mem_cons.mpr ⟨Nat.succ_ne_zero n, hbusy⟩⟩

theorem takeReady_eq_none {w : Waiting} (h : takeReady w = none) : ∀ e ∈ w, e.2 ≠ 0 := by
  fun_induction takeReady w with
  | case1 => simp
  | case2 => cases h
  | case3 i n w ih =>
    exact List.forall_mem_cons.mpr ⟨Nat.succ_ne_zero n, ih (Option.map_eq_none_iff.mp h)⟩

theorem emit_of_some {w rest : Waiting} {id : NodeId} (h : takeReady w = some (id, rest)) :
    g.emit w = (do return id :: (← g.emit (release ((g.uses id).map (·.1)) rest))) := by
  rw [emit]
  split
  · next h' =>
    cases h.symm.trans h'
    rfl
  · next h' => cases h.symm.trans h'

theorem emit_of_none {e : NodeId × Nat} {w : Waiting} (h : takeReady (e :: w) = none) :
    g.emit (e :: w) = .error (.operandCycle e.1) := by
  rw [emit]
  split
  · next h' => cases h.symm.trans h'
  · rfl

theorem map_fst_release (consumers : List NodeId) (w : Waiting) :
    (release consumers w).map (·.1) = w.map (·.1) := by
  rw [release, List.map_map]
  rfl

theorem emit_perm {w : Waiting} {order : List NodeId} (h : g.emit w = .ok order) :
    order.Perm (w.map (·.1)) := by
  fun_induction emit g w generalizing order with
  | case1 w id rest hr ih =>
    obtain ⟨tail, htail, ho⟩ := Except.bind_eq_ok.mp h
    cases Except.pure_eq_ok.mp ho
    obtain ⟨w₁, w₂, rfl, rfl, -⟩ := takeReady_eq_some hr
    have htail := ih htail
    rw [map_fst_release] at htail
    rw [List.map_append, List.map_cons]
    rw [List.map_append] at htail
    exact (htail.cons id).trans List.perm_middle.symm
  | case2 =>
    cases h
    exact .refl _
  | case3 => cases h

theorem forwardOrder_perm {order : List NodeId} (h : g.forwardOrder = .ok order) :
    order.Perm g.ids := by
  have := emit_perm h
  rwa [List.map_map, show (Prod.fst ∘ fun id => (id, (g.operands id).length)) = id from rfl,
    List.map_id] at this

def Ranked (g : Graph) (rank : NodeId → Nat) : Prop :=
  ∀ id, ∀ operand ∈ g.operands id, rank operand < rank id

theorem Ranked.grow {rank : NodeId → Nat} (hrank : g.Ranked rank) (h : g.Sound)
    (hv : g.hidden = []) {node : Node} {operands : List NodeId} {n : Nat} (hid : node.id ∉ g.ids)
    (hin : ∀ o ∈ operands, o ∈ g.ids ∧ rank o < n) :
    (g.grow node operands).Ranked (Function.update rank node.id n) := by
  have hold {o : NodeId} (ho : o ∈ g.ids) : Function.update rank node.id n o = rank o := by
    apply Function.update_of_ne
    rintro rfl
    exact hid ho
  intro id o ho
  by_cases hself : id = node.id
  · subst hself
    rw [operands_grow_self h.targets] at ho
    rw [hold (hin o ho).1, Function.update_self]
    exact (hin o ho).2
  · rw [operands_grow_of_ne hself] at ho
    rw [hold (h.mem_ids_of_mem_operands hv ho), Function.update_of_ne hself]
    exact hrank id o ho

theorem Ranked.redirect {rank : NodeId → Nat} (hrank : g.Ranked rank) (h : g.Sound)
    (hv : g.hidden = []) {old new : NodeId} (hle : rank new ≤ rank old) :
    (g.redirect old new).Ranked rank := by
  intro id o ho
  rcases h.mem_operands_redirect hv ho with ⟨ho, -⟩ | ⟨rfl, hold⟩
  · exact hrank id o ho
  · exact hle.trans_lt (hrank id old hold)

/-- Nodes with the number of their operands that are among them. -/
def waitingFor (g : Graph) (ids : List NodeId) : Waiting :=
  ids.map fun id => (id, (g.operands id).countP (ids.contains ·))

theorem count_uses (h : g.Sound) (hv : g.hidden = []) (id consumer : NodeId) :
    ((g.uses id).map (·.1)).count consumer = (g.operands consumer).count id := by
  rw [uses, ((List.mergeSort_perm ..).map _).count_eq, operands_eq,
    ((byPosition_perm _).map _).count_eq, List.map_map, outgoing, incoming, List.count_eq_countP,
    List.count_eq_countP, List.countP_map, List.countP_map, List.countP_filter, List.countP_filter]
  refine List.countP_congr ?_
  intro e he
  obtain ⟨-, hs⟩ := (mem_places_of_visible hv).mp (h.sources e he)
  obtain ⟨-, ht⟩ := (mem_places_of_visible hv).mp (h.targets e he)
  have hsource : e.source = g.place id ↔ e.source.id = id :=
    ⟨fun heq => congrArg Place.id heq, fun heq => heq ▸ hs⟩
  have htarget : e.target = g.place consumer ↔ e.target.id = consumer :=
    ⟨fun heq => congrArg Place.id heq, fun heq => heq ▸ ht⟩
  simp [hsource, htarget, and_comm]

theorem countP_contains_erase {ids : List NodeId} {id : NodeId} (hid : id ∈ ids)
    (hnd : ids.Nodup) (l : List NodeId) :
    l.countP (ids.contains ·) - l.count id = l.countP ((ids.erase id).contains ·) := by
  have hsplit : l.countP (ids.contains ·) = l.countP ((ids.erase id).contains ·) + l.count id := by
    induction l with
    | nil => rfl
    | cons o l ih =>
      rw [List.countP_cons, List.countP_cons, List.count_cons, ih]
      by_cases ho : o = id
      · subst ho
        simp [hid, hnd.mem_erase_iff]
        omega
      · simp [hnd.mem_erase_iff, ho]
        omega
  omega

theorem release_waitingFor (h : g.Sound) (hv : g.hidden = []) {ids : List NodeId}
    (hnd : ids.Nodup) {id : NodeId} (hid : id ∈ ids) :
    release ((g.uses id).map (·.1))
        ((ids.erase id).map fun x => (x, (g.operands x).countP (ids.contains ·))) =
      g.waitingFor (ids.erase id) := by
  rw [release, waitingFor, List.map_map]
  refine List.map_congr_left ?_
  intro x _
  simp only [Function.comp_apply, count_uses h hv, countP_contains_erase hid hnd]

theorem map_fst_waitingFor (g : Graph) (ids : List NodeId) : (g.waitingFor ids).map (·.1) = ids := by
  rw [waitingFor, List.map_map]
  exact List.map_id ids

/-- Among nodes that wait, one that reads none of them. -/
def Ready (g : Graph) (ids : List NodeId) (id : NodeId) : Prop :=
  id ∈ ids ∧ ∀ o ∈ g.operands id, o ∉ ids

theorem ready_iff {ids : List NodeId} {id : NodeId} :
    g.Ready ids id ↔ id ∈ ids ∧ (g.operands id).countP (ids.contains ·) = 0 := by
  simp [Ready, List.countP_eq_zero]

theorem takeReady_waitingFor {ids : List NodeId} (hasc : ids.Pairwise (· < ·)) {id : NodeId}
    {rest : Waiting} (h : takeReady (g.waitingFor ids) = some (id, rest)) :
    IsLeast {k | g.Ready ids k} id ∧
      rest = (ids.erase id).map fun x => (x, (g.operands x).countP (ids.contains ·)) := by
  obtain ⟨w₁, w₂, hw, rfl, hbusy⟩ := takeReady_eq_some h
  obtain ⟨ids₁, ids', hids, h₁, h'⟩ := List.map_eq_append_iff.mp hw
  obtain ⟨x, ids₂, rfl, hx, h₂⟩ := List.map_eq_cons_iff.mp h'
  simp only [Prod.mk.injEq] at hx
  obtain ⟨rfl, hzero⟩ := hx
  obtain ⟨-, hasc', hcross⟩ := List.pairwise_append.mp (hids ▸ hasc)
  refine ⟨⟨ready_iff.mpr ⟨by simp [hids], hzero⟩, fun k hk => ?_⟩, ?_⟩
  · obtain ⟨hmem, hfree⟩ := ready_iff.mp hk
    rw [hids] at hmem
    rcases List.mem_append.mp hmem with hmem | hmem
    · exact absurd hfree (hbusy _ (h₁ ▸ List.mem_map_of_mem hmem))
    · rcases List.mem_cons.mp hmem with rfl | hmem
      · exact Nat.le_refl k
      · exact Nat.le_of_lt ((List.pairwise_cons.mp hasc').1 k hmem)
  · have hnot : x ∉ ids₁ := fun hm => Nat.lt_irrefl x (hcross x hm x List.mem_cons_self)
    have herase : ids.erase x = ids₁ ++ ids₂ := by
      rw [hids, List.erase_append_right _ hnot, List.erase_cons_head]
    rw [herase, List.map_append, h₁, h₂]

/-- The least node that is ready comes next. When none is, what waits first is reported. -/
theorem emit_waitingFor (h : g.Sound) (hv : g.hidden = []) {ids : List NodeId}
    (hasc : ids.Pairwise (· < ·)) :
    (∃ id, IsLeast {k | g.Ready ids k} id ∧
      g.emit (g.waitingFor ids) = (do return id :: (← g.emit (g.waitingFor (ids.erase id))))) ∨
    (∀ k, ¬g.Ready ids k) ∧
      g.emit (g.waitingFor ids) = ids.head?.elim (.ok []) fun id => .error (.operandCycle id) := by
  cases hr : takeReady (g.waitingFor ids) with
  | some ready =>
    obtain ⟨id, rest⟩ := ready
    obtain ⟨hleast, rfl⟩ := takeReady_waitingFor hasc hr
    have hnext := emit_of_some (g := g) hr
    rw [release_waitingFor h hv (hasc.imp Nat.ne_of_lt) hleast.1.1] at hnext
    exact .inl ⟨id, hleast, hnext⟩
  | none =>
    refine .inr ⟨?_, ?_⟩
    · intro k hk
      obtain ⟨hmem, hfree⟩ := ready_iff.mp hk
      exact takeReady_eq_none hr _ (List.mem_map_of_mem hmem) hfree
    · cases ids with
      | nil =>
        rw [waitingFor, List.map_nil, emit]
        rfl
      | cons id ids => exact emit_of_none hr

/-- A list in which no node reads itself or a later one. -/
inductive Ordered (g : Graph) : List NodeId → Prop where
  | nil : Ordered g []
  | cons {id : NodeId} {rest : List NodeId} (h : ∀ o ∈ g.operands id, o ∉ id :: rest)
      (hrest : Ordered g rest) : Ordered g (id :: rest)

/-- An order stays one if the nodes in it read no more of each other. -/
theorem Ordered.mono {g' : Graph} {order : List NodeId} (h : g.Ordered order)
    (hsub : ∀ id ∈ order, ∀ o ∈ g'.operands id, o ∈ order → o ∈ g.operands id) :
    g'.Ordered order := by
  induction h with
  | nil => exact .nil
  | @cons id rest hfirst _ ih =>
    refine .cons (fun o ho hmem => hfirst o (hsub id List.mem_cons_self o ho hmem) hmem) ?_
    exact ih fun k hk o ho hmem =>
      hsub k (List.mem_cons_of_mem _ hk) o ho (List.mem_cons_of_mem _ hmem)

theorem Ordered.of_append {before after : List NodeId} (h : g.Ordered (before ++ after)) :
    g.Ordered after := by
  induction before with
  | nil => exact h
  | cons id before ih =>
    cases h with
    | cons _ hrest => exact ih hrest

theorem emit_ordered (h : g.Sound) (hv : g.hidden = []) {ids order : List NodeId}
    (hasc : ids.Pairwise (· < ·)) (ho : g.emit (g.waitingFor ids) = .ok order) :
    g.Ordered order := by
  induction order generalizing ids with
  | nil => exact .nil
  | cons first order ih =>
    have hperm := emit_perm ho
    rw [map_fst_waitingFor] at hperm
    rcases emit_waitingFor h hv hasc with ⟨id, hleast, hnext⟩ | ⟨-, hstop⟩
    · rw [hnext] at ho
      obtain ⟨tail, htail, ho⟩ := Except.bind_eq_ok.mp ho
      cases Except.pure_eq_ok.mp ho
      apply Ordered.cons
      · exact fun o hread hmem => hleast.1.2 o hread (hperm.mem_iff.mp hmem)
      · exact ih (hasc.sublist List.erase_sublist) htail
    · rw [hstop] at ho
      cases ids with
      | nil => cases hperm.eq_nil
      | cons id ids => cases ho

theorem Ordered.exists_rank {order : List NodeId} (h : g.Ordered order) :
    ∃ rank : NodeId → Nat, ∀ id ∈ order, ∀ o ∈ g.operands id, o ∈ order → rank o < rank id := by
  induction h with
  | nil => exact ⟨fun _ => 0, by simp⟩
  | @cons first rest hfirst _ ih =>
    obtain ⟨rank, hrank⟩ := ih
    refine ⟨fun x => if x = first then 0 else rank x + 1, fun x hx o hread hmem => ?_⟩
    have hxne : x ≠ first := by
      rintro rfl
      exact hfirst o hread hmem
    have hx := (List.mem_cons.mp hx).resolve_left hxne
    by_cases hone : o = first
    · simp [hone, hxne]
    · simp only [hone, hxne, ↓reduceIte, Nat.add_lt_add_iff_right]
      exact hrank x hx o hread ((List.mem_cons.mp hmem).resolve_left hone)

theorem Ranked.exists_ready {rank : NodeId → Nat} (hrank : g.Ranked rank) {ids : List NodeId}
    (hids : ids ≠ []) : ∃ id, g.Ready ids id := by
  by_contra hnone
  -- Every node waits for another one, down to ranks below zero.
  have hwaits : ∀ n, ∀ x ∈ ids, rank x ≠ n := by
    intro n
    induction n using Nat.strongRecOn with
    | ind n ih =>
      rintro x hx rfl
      obtain ⟨o, ho, hmem⟩ : ∃ o ∈ g.operands x, o ∈ ids := by
        by_contra hfree
        push Not at hfree
        exact hnone ⟨x, hx, hfree⟩
      exact ih (rank o) (hrank x o ho) o hmem rfl
  obtain ⟨x, hx⟩ := List.exists_mem_of_ne_nil ids hids
  exact hwaits _ x hx rfl

theorem exists_emit_of_ranked (h : g.Sound) (hv : g.hidden = []) {rank : NodeId → Nat}
    (hrank : g.Ranked rank) {ids : List NodeId} (hasc : ids.Pairwise (· < ·)) :
    ∃ order, g.emit (g.waitingFor ids) = .ok order := by
  rcases emit_waitingFor h hv hasc with ⟨id, hleast, hnext⟩ | ⟨hnone, hstop⟩
  · have hlt : (ids.erase id).length < ids.length := by
      rw [List.length_erase_of_mem hleast.1.1]
      exact Nat.sub_lt (List.length_pos_of_mem hleast.1.1) Nat.one_pos
    obtain ⟨order, ho⟩ := exists_emit_of_ranked h hv hrank (hasc.sublist List.erase_sublist)
    exact ⟨id :: order, by rw [hnext, ho]; rfl⟩
  · cases ids with
    | nil => exact ⟨[], hstop⟩
    | cons id ids =>
      obtain ⟨k, hk⟩ := hrank.exists_ready (List.cons_ne_nil id ids)
      exact absurd hk (hnone k)
termination_by ids.length

theorem Sound.forwardOrder_eq_waitingFor (h : g.Sound) (hv : g.hidden = []) :
    g.forwardOrder = g.emit (g.waitingFor g.ids) := by
  rw [forwardOrder, waitingFor]
  refine congrArg _ (List.map_congr_left fun id _ => ?_)
  rw [List.countP_eq_length.mpr]
  intro o ho
  simpa using h.mem_ids_of_mem_operands hv ho

theorem Sound.forwardOrder_ordered (h : g.Sound) (hv : g.hidden = []) {order : List NodeId}
    (ho : g.forwardOrder = .ok order) : g.Ordered order :=
  emit_ordered h hv h.ascending (h.forwardOrder_eq_waitingFor hv ▸ ho)

theorem Sound.forwardOrder_ok_iff (h : g.Sound) (hv : g.hidden = []) :
    (∃ order, g.forwardOrder = .ok order) ↔ ∃ rank, g.Ranked rank := by
  constructor
  · rintro ⟨order, ho⟩
    have hperm := forwardOrder_perm ho
    obtain ⟨rank, hrank⟩ := (h.forwardOrder_ordered hv ho).exists_rank
    refine ⟨rank, ?_⟩
    intro id o ho
    exact hrank id (hperm.mem_iff.mpr (h.mem_ids_of_operand hv ho)) o ho
      (hperm.mem_iff.mpr (h.mem_ids_of_mem_operands hv ho))
  · rintro ⟨rank, hrank⟩
    rw [h.forwardOrder_eq_waitingFor hv]
    exact exists_emit_of_ranked h hv hrank h.ascending

theorem forwardOrder_ok_iff (h : g.Wellformed) :
    (∃ order, g.forwardOrder = .ok order) ↔ ∃ rank, g.Ranked rank :=
  h.toSound.forwardOrder_ok_iff h.visible

end CipherGraph.Graph

import CipherGraph.Graph.Typing
import CipherGraph.Proofs.Order

/-! # Inferred types

A typing that was inferred fits every node: the class it gives is the one it gives rise to. An
acyclic graph that hides no node has such a typing.
-/

namespace CipherGraph

namespace Typing

variable {t t' : Typing} {c d : ValueClass} {ids : List NodeId}

theorem of_eq_ok {id : NodeId} : t.of id = .ok c ↔ t.find? id = some c := by
  unfold of
  split <;> simp_all

theorem joinAll_eq_ok :
    t.joinAll c ids = .ok d ↔
      ∃ cs : List ValueClass, ids.map t.find? = cs.map some ∧ d = cs.foldl ValueClass.join c := by
  induction ids generalizing c with
  | nil =>
    constructor
    · intro h
      cases h
      exact ⟨[], rfl, rfl⟩
    · rintro ⟨cs, hcs, rfl⟩
      cases List.map_eq_nil_iff.mp hcs.symm
      rfl
  | cons id ids ih =>
    rw [joinAll, Except.bind_eq_ok]
    constructor
    · rintro ⟨k, hk, h⟩
      obtain ⟨cs, hcs, rfl⟩ := ih.mp h
      exact ⟨k :: cs, by simp [of_eq_ok.mp hk, hcs], rfl⟩
    · rintro ⟨cs, hcs, rfl⟩
      cases cs with
      | nil => cases hcs
      | cons k cs =>
        obtain ⟨hk, hcs⟩ := List.cons_eq_cons.mp hcs
        exact ⟨k, of_eq_ok.mpr hk, ih.mpr ⟨cs, hcs, rfl⟩⟩

theorem joinAll_mono (h : ∀ id c, t.find? id = some c → t'.find? id = some c)
    (hj : t.joinAll c ids = .ok d) : t'.joinAll c ids = .ok d := by
  induction ids generalizing c with
  | nil => exact hj
  | cons id ids ih =>
    obtain ⟨k, hk, hj⟩ := Except.bind_eq_ok.mp hj
    exact Except.bind_eq_ok.mpr ⟨k, of_eq_ok.mpr (h id k (of_eq_ok.mp hk)), ih hj⟩

end Typing

namespace ValueClass

variable {a b c : ValueClass} {classes : List ValueClass}

theorem le_raw : c ≤ raw ↔ c = raw := by
  cases c <;> decide

theorem plain_le : plain ≤ c ↔ c ≠ raw := by
  cases c <;> decide

theorem cipher_le : cipher ≤ c ↔ c = cipher := by
  cases c <;> decide

theorem le_join : c ≤ a.join b ↔ c ≤ a ∨ c ≤ b := by
  cases a <;> cases b <;> cases c <;> decide

theorem le_foldl_join : c ≤ classes.foldl join a ↔ c ≤ a ∨ ∃ d ∈ classes, c ≤ d := by
  induction classes generalizing a with
  | nil => simp
  | cons d classes ih => simp [ih, le_join, or_assoc]

end ValueClass

/-- The class of a result, given the classes of the operands. -/
def Operation.result (op : Operation) (classes : List ValueClass) : ValueClass :=
  match op with
  | .encode .. => .plain
  | .constant _ => .raw
  | .input _ type => type
  | _ => classes.foldl ValueClass.join .raw

theorem Operation.result_perm (op : Operation) {classes classes' : List ValueClass}
    (h : classes.Perm classes') : op.result classes = op.result classes' := by
  have hright : RightCommutative ValueClass.join := ⟨fun a b c => by
    rw [ValueClass.join_assoc, ValueClass.join_comm b, ← ValueClass.join_assoc]⟩
  cases op with
  | encode | constant | input => rfl
  | _ => exact h.foldl_eq _

namespace Graph

variable {g : Graph} {t t' : Typing}

theorem typeOf_mono (h : ∀ id c, t.find? id = some c → t'.find? id = some c) {id : NodeId}
    {c : ValueClass} (ht : g.typeOf t id = .ok c) : g.typeOf t' id = .ok c := by
  unfold typeOf at ht ⊢
  obtain ⟨op, hop, ht⟩ := Except.bind_eq_ok.mp ht
  refine Except.bind_eq_ok.mpr ⟨op, hop, ?_⟩
  cases op with
  | encode | constant | input => exact ht
  | _ => exact Typing.joinAll_mono h ht

/-- Every node has the class that the classes of its operands call for. -/
def Typed (g : Graph) (t : Typing) : Prop :=
  ∀ id ∈ g.ids, ∃ c, t.find? id = some c ∧ g.typeOf t id = .ok c

theorem typeAlong_ok {order : List NodeId} (hnd : order.Nodup)
    (hnew : ∀ id ∈ order, t.find? id = none) (h : g.typeAlong order t = .ok t') :
    (∀ id ∈ order, ∃ c, t'.find? id = some c ∧ g.typeOf t' id = .ok c) ∧
      ∀ id ∉ order, t'.find? id = t.find? id := by
  induction order generalizing t with
  | nil =>
    cases h
    exact ⟨by simp, fun _ _ => rfl⟩
  | cons id order ih =>
    obtain ⟨hid, hnd⟩ := List.nodup_cons.mp hnd
    obtain ⟨hfirst, hnew⟩ := List.forall_mem_cons.mp hnew
    obtain ⟨c, hc, h⟩ := Except.bind_eq_ok.mp h
    have hrest : ∀ k ∈ order, (t.insert id c).find? k = none := fun k hk => by
      have hne : id ≠ k := by
        rintro rfl
        exact hid hk
      rw [OrderedMap.find?_insert_of_ne hne, hnew k hk]
    obtain ⟨hin, hout⟩ := ih hnd hrest h
    have hkeep : ∀ k ∉ id :: order, t'.find? k = t.find? k := fun k hk => by
      obtain ⟨hki, hko⟩ := not_or.mp (mt List.mem_cons.mpr hk)
      rw [hout k hko, OrderedMap.find?_insert_of_ne (Ne.symm hki)]
    refine ⟨List.forall_mem_cons.mpr ⟨⟨c, ?_, ?_⟩, hin⟩, hkeep⟩
    · rw [hout id hid, OrderedMap.find?_insert_self]
    · refine typeOf_mono (fun k d hk => ?_) hc
      rw [hkeep k ?_, hk]
      intro hmem
      rcases List.mem_cons.mp hmem with rfl | hmem
      · simp [hfirst] at hk
      · simp [hnew k hmem] at hk

theorem typed_of_inferTypes (hg : g.Sound) (h : g.inferTypes = .ok t) : g.Typed t := by
  obtain ⟨order, ho, h⟩ := Except.bind_eq_ok.mp h
  have hp := forwardOrder_perm ho
  obtain ⟨hin, -⟩ := typeAlong_ok (hp.nodup_iff.mpr hg.nodup) (fun _ _ => rfl) h
  exact fun id hid => hin id (hp.mem_iff.mpr hid)

theorem mem_ids_of_inferTypes (hg : g.Sound) (ht : g.inferTypes = .ok t) {id : NodeId}
    {c : ValueClass} (h : t.find? id = some c) : id ∈ g.ids := by
  obtain ⟨order, ho, htypes⟩ := Except.bind_eq_ok.mp ht
  have hp := forwardOrder_perm ho
  by_contra hid
  have hnone := (typeAlong_ok (hp.nodup_iff.mpr hg.nodup) (fun _ _ => rfl) htypes).2 id
    fun hmem => hid (hp.mem_iff.mp hmem)
  cases h.symm.trans hnone

theorem Typed.find?_eq (ht : g.Typed t) (hg : g.Sound) {id : NodeId} {op : Operation}
    (hn : ⟨id, op⟩ ∈ g.nodes) {classes : List ValueClass}
    (hclasses : (g.operands id).map t.find? = classes.map some) :
    t.find? id = some (op.result classes) := by
  obtain ⟨c, hc, htype⟩ := ht id (List.mem_map_of_mem hn)
  have hjoin (hj : t.joinAll .raw (g.operands id) = .ok c) :
      c = classes.foldl ValueClass.join .raw := by
    obtain ⟨cs, hcs, rfl⟩ := Typing.joinAll_eq_ok.mp hj
    rw [hclasses] at hcs
    rw [List.map_injective_iff.mpr (fun _ _ h => Option.some.inj h) hcs]
  unfold typeOf at htype
  rw [(op?_eq_ok hg.ascending).mpr hn] at htype
  rw [hc]
  cases op with
  | encode | constant | input =>
    cases htype
    rfl
  | _ => exact congrArg some (hjoin htype)

/-- The classes of a node's operands, those without a class left out. -/
def classes (g : Graph) (t : Typing) (id : NodeId) : List ValueClass :=
  (g.operands id).filterMap t.find?

theorem classes_congr {g' : Graph} {id : NodeId} (hoperands : g'.operands id = g.operands id)
    (htypes : ∀ o ∈ g.operands id, t'.find? o = t.find? o) : g'.classes t' id = g.classes t id := by
  rw [classes, hoperands]
  exact List.filterMap_congr htypes

section Grow

variable {node : Node} {operands : List NodeId} (hg : g.Sound) (hid : node.id ∉ g.ids)

include hg hid

theorem classes_grow_self (hin : ∀ o ∈ operands, o ∈ g.ids) (c : ValueClass) :
    (g.grow node operands).classes (t.insert node.id c) node.id = operands.filterMap t.find? := by
  rw [classes, operands_grow_self hg.targets]
  exact List.filterMap_congr fun o ho =>
    OrderedMap.find?_insert_of_ne fun heq => hid (heq ▸ hin o ho)

theorem classes_grow_of_ne (hv : g.hidden = []) {id : NodeId} (hne : id ≠ node.id)
    (c : ValueClass) :
    (g.grow node operands).classes (t.insert node.id c) id = g.classes t id :=
  classes_congr (operands_grow_of_ne hne) fun _ ho => OrderedMap.find?_insert_of_ne fun heq =>
    hid (heq ▸ hg.mem_ids_of_mem_operands hv ho)

end Grow

theorem classes_redirect_perm (hg : g.Sound) (hv : g.hidden = []) {old new : NodeId}
    (htype : t.find? new = t.find? old) (id : NodeId) :
    ((g.redirect old new).classes t id).Perm (g.classes t id) := by
  by_cases hid : id = new
  · rw [classes, hid, operands_redirect_self]
    exact .refl _
  · refine ((hg.operands_redirect_perm hv hid).filterMap _).trans ?_
    rw [List.filterMap_map]
    refine .of_eq (List.filterMap_congr fun o _ => ?_)
    rw [Function.comp_apply]
    split
    · next ho => rw [ho, htype]
    · rfl

theorem Typed.found (ht : g.Typed t) {id : NodeId} (hid : id ∈ g.ids) :
    ∃ c, t.find? id = some c := (ht id hid).imp fun _ h => h.1

theorem exists_arithmetic_operands (hg : g.Sound) (hv : g.hidden = [])
    (ht : ∀ id ∈ g.ids, ∃ c, t.find? id = some c) {id : NodeId} {op : Arithmetic}
    (hn : ⟨id, .arithmetic op⟩ ∈ g.nodes) :
    ∃ lhs rhs a b, g.operands id = [lhs, rhs] ∧ t.find? lhs = some a ∧ t.find? rhs = some b ∧
      g.classes t id = [a, b] := by
  obtain ⟨lhs, rhs, hoperands⟩ := List.length_eq_two.mp (hg.arity _ hn)
  dsimp only at hoperands
  have hfound (o : NodeId) (ho : o ∈ [lhs, rhs]) : ∃ c, t.find? o = some c :=
    ht o (hg.mem_ids_of_mem_operands hv (hoperands ▸ ho))
  obtain ⟨a, ha⟩ := hfound lhs (by simp)
  obtain ⟨b, hb⟩ := hfound rhs (by simp)
  refine ⟨lhs, rhs, a, b, hoperands, ha, hb, ?_⟩
  rw [classes, hoperands, List.filterMap_cons_some ha, List.filterMap_cons_some hb,
    List.filterMap_nil]

theorem map_find?_eq_classes {ids : List NodeId} (h : ∀ id ∈ ids, ∃ c, t.find? id = some c) :
    ids.map t.find? = (ids.filterMap t.find?).map some := by
  induction ids with
  | nil => rfl
  | cons id ids ih =>
    obtain ⟨⟨c, hc⟩, h⟩ := List.forall_mem_cons.mp h
    rw [List.map_cons, List.filterMap_cons_some hc, List.map_cons, ih h, hc]

theorem Typed.classes_eq (ht : g.Typed t) (hg : g.Sound) (hv : g.hidden = []) (id : NodeId) :
    (g.operands id).map t.find? = (g.classes t id).map some :=
  map_find?_eq_classes fun o ho =>
    (ht o (hg.mem_ids_of_mem_operands hv ho)).imp fun _ hc => hc.1

/-- In a graph that hides no node, a typing fits if it gives every node the class that the classes
of its operands call for. -/
theorem typed_iff (hg : g.Sound) (hv : g.hidden = []) :
    g.Typed t ↔ ∀ n ∈ g.nodes, t.find? n.id = some (n.op.result (g.classes t n.id)) := by
  constructor
  · intro ht n hn
    exact ht.find?_eq hg hn (ht.classes_eq hg hv n.id)
  · intro h id hid
    have hfound : ∀ o ∈ g.operands id, ∃ c, t.find? o = some c := by
      intro o ho
      obtain ⟨n, hn, rfl⟩ := List.mem_map.mp (hg.mem_ids_of_mem_operands hv ho)
      exact ⟨_, h n hn⟩
    obtain ⟨⟨_, op⟩, hn, rfl⟩ := List.mem_map.mp hid
    refine ⟨_, h _ hn, ?_⟩
    rw [typeOf, (op?_eq_ok hg.ascending).mpr hn]
    cases op with
    | encode | constant | input => rfl
    | _ => exact Typing.joinAll_eq_ok.mpr ⟨_, map_find?_eq_classes hfound, rfl⟩

theorem Typed.unique (ht : g.Typed t) (ht' : g.Typed t') (hg : g.Sound) (hv : g.hidden = [])
    {rank : NodeId → Nat} (hrank : g.Ranked rank) {id : NodeId} (hid : id ∈ g.ids) :
    t.find? id = t'.find? id := by
  induction hn : rank id using Nat.strongRecOn generalizing id with
  | ind n ih =>
    subst hn
    have hclasses : g.classes t id = g.classes t' id :=
      List.filterMap_congr fun o ho =>
        ih (rank o) (hrank id o ho) (hg.mem_ids_of_mem_operands hv ho) rfl
    obtain ⟨node, hn, rfl⟩ := List.mem_map.mp hid
    rw [(typed_iff hg hv).mp ht node hn, (typed_iff hg hv).mp ht' node hn, hclasses]

theorem joinAll_ok_of_found {ids : List NodeId} (h : ∀ id ∈ ids, ∃ c, t.find? id = some c)
    (c : ValueClass) : ∃ d, t.joinAll c ids = .ok d := by
  induction ids generalizing c with
  | nil => exact ⟨c, rfl⟩
  | cons id ids ih =>
    obtain ⟨⟨k, hk⟩, h⟩ := List.forall_mem_cons.mp h
    obtain ⟨d, hd⟩ := ih h (c.join k)
    exact ⟨d, Except.bind_eq_ok.mpr ⟨k, Typing.of_eq_ok.mpr hk, hd⟩⟩

theorem typeOf_ok_of_found {id : NodeId} (hid : id ∈ g.ids)
    (h : ∀ o ∈ g.operands id, ∃ c, t.find? o = some c) : ∃ c, g.typeOf t id = .ok c := by
  obtain ⟨op, hop⟩ : ∃ op, g.op? id = .ok op := by
    obtain ⟨node, hn⟩ := Option.isSome_iff_exists.mp (contains_iff.mpr hid)
    exact ⟨node.op, by rw [op?, hn]⟩
  unfold typeOf
  rw [hop]
  cases op with
  | encode | constant | input => exact ⟨_, rfl⟩
  | _ => exact joinAll_ok_of_found h _

theorem Ordered.typeAlong_ok {order : List NodeId} (h : g.Ordered order)
    (hids : ∀ id ∈ order, id ∈ g.ids)
    (hfound : ∀ id ∈ order, ∀ o ∈ g.operands id, o ∈ order ∨ ∃ c, t.find? o = some c) :
    ∃ t', g.typeAlong order t = .ok t' := by
  induction h generalizing t with
  | nil => exact ⟨t, rfl⟩
  | @cons id rest hid _ ih =>
    obtain ⟨hidg, hids⟩ := List.forall_mem_cons.mp hids
    obtain ⟨hfirst, hfound⟩ := List.forall_mem_cons.mp hfound
    obtain ⟨c, hc⟩ := typeOf_ok_of_found hidg fun o ho => (hfirst o ho).resolve_left (hid o ho)
    obtain ⟨t', ht'⟩ := ih (t := t.insert id c) hids fun k hk o ho => by
      rw [OrderedMap.find?_insert]
      split
      · exact .inr ⟨c, rfl⟩
      · next hne =>
        exact (hfound k hk o ho).imp_left fun hm => (List.mem_cons.mp hm).resolve_left (Ne.symm hne)
    exact ⟨t', Except.bind_eq_ok.mpr ⟨c, hc, ht'⟩⟩

/-- Only a cycle keeps a graph from being typed, unless it hides nodes. -/
theorem Sound.inferTypes_ok (h : g.Sound) (hv : g.hidden = []) {order : List NodeId}
    (ho : g.forwardOrder = .ok order) : ∃ t, g.inferTypes = .ok t := by
  have hperm := forwardOrder_perm ho
  obtain ⟨t, ht⟩ := (h.forwardOrder_ordered hv ho).typeAlong_ok (t := ∅)
    (fun id hid => hperm.mem_iff.mp hid)
    fun id _ o ho => .inl (hperm.mem_iff.mpr (h.mem_ids_of_mem_operands hv ho))
  exact ⟨t, Except.bind_eq_ok.mpr ⟨order, ho, ht⟩⟩

theorem Sound.exists_rank (h : g.Sound) (hv : g.hidden = []) (ht : g.inferTypes = .ok t) :
    ∃ rank, g.Ranked rank := by
  obtain ⟨order, ho, -⟩ := Except.bind_eq_ok.mp ht
  exact (h.forwardOrder_ok_iff hv).mp ⟨order, ho⟩

theorem Wellformed.inferTypes_ok (h : g.Wellformed) {order : List NodeId}
    (ho : g.forwardOrder = .ok order) : ∃ t, g.inferTypes = .ok t :=
  h.toSound.inferTypes_ok h.visible ho

end Graph

end CipherGraph

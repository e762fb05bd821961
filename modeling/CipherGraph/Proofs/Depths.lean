import CipherGraph.Proofs.Requirements
import Mathlib.Data.List.Induction
import Mathlib.Order.Bounds.Basic

/-! # Multiplicative depth

The depth of a node is the largest number of encrypted products and quotients on a path of operands
that ends there. The analysis records depths that follow the operands, the depth over all nodes is
one of the requirements, and nodes in the clear have depth zero.
-/

namespace CipherGraph.Graph

variable {g : Graph} {t : Typing} {id : NodeId}

/-- An encrypted product or quotient. -/
def spends (g : Graph) (t : Typing) (id : NodeId) : Bool :=
  t.find? id = some .cipher && (g.node? id).any fun n => isProduct n.op

theorem spends_eq {op : Operation} (h : g.op? id = .ok op) :
    g.spends t id = (t.find? id = some .cipher && isProduct op) := by
  unfold op? at h
  split at h
  · next node hnode =>
    cases h
    rw [spends, hnode]
    rfl
  · cases h

/-- Nodes of which each is an operand of the one before it. -/
inductive OperandPath (g : Graph) : NodeId → List NodeId → Prop where
  | single (id : NodeId) : OperandPath g id [id]
  | cons {id o : NodeId} {path : List NodeId} (ho : o ∈ g.operands id)
      (h : OperandPath g o path) : OperandPath g id (id :: path)

/-- The largest number of encrypted products and quotients on a path that ends at the node. -/
def IsDepth (g : Graph) (t : Typing) (id : NodeId) (d : Nat) : Prop :=
  IsGreatest {n | ∃ path, g.OperandPath id path ∧ path.countP (g.spends t) = n} d

def deepestOf (D : NodeId → Nat) (ids : List NodeId) : Nat :=
  ids.foldl (fun d id => max d (D id)) 0

theorem foldl_max_le {D : NodeId → Nat} {ids : List NodeId} {start n : Nat} :
    ids.foldl (fun d id => max d (D id)) start ≤ n ↔ start ≤ n ∧ ∀ id ∈ ids, D id ≤ n := by
  induction ids generalizing start with
  | nil => simp
  | cons id ids ih => rw [List.foldl_cons, ih, Nat.max_le, List.forall_mem_cons, and_assoc]

theorem deepestOf_le {D : NodeId → Nat} {ids : List NodeId} {n : Nat} :
    deepestOf D ids ≤ n ↔ ∀ id ∈ ids, D id ≤ n := by
  simp [deepestOf, foldl_max_le]

theorem le_deepestOf {D : NodeId → Nat} {ids : List NodeId} (h : id ∈ ids) :
    D id ≤ deepestOf D ids :=
  deepestOf_le.mp le_rfl id h

theorem exists_deepestOf (D : NodeId → Nat) {ids : List NodeId} (h : deepestOf D ids ≠ 0) :
    ∃ id ∈ ids, deepestOf D ids = D id := by
  by_contra hnone
  push Not at hnone
  have hle : deepestOf D ids ≤ deepestOf D ids - 1 := deepestOf_le.mpr fun id hid => by
    have := le_deepestOf (D := D) hid
    have := hnone id hid
    omega
  omega

theorem deepestOf_append (D : NodeId → Nat) (ids ids' : List NodeId) :
    deepestOf D (ids ++ ids') = max (deepestOf D ids) (deepestOf D ids') := by
  refine eq_of_forall_ge_iff fun n => ?_
  rw [Nat.max_le, deepestOf_le, deepestOf_le, deepestOf_le, List.forall_mem_append]

theorem deepestOf_singleton (D : NodeId → Nat) (id : NodeId) : deepestOf D [id] = D id :=
  Nat.zero_max _

theorem deepestOf_congr {D D' : NodeId → Nat} {ids : List NodeId} (h : ∀ id ∈ ids, D id = D' id) :
    deepestOf D ids = deepestOf D' ids := by
  refine le_antisymm (deepestOf_le.mpr fun id hid => ?_) (deepestOf_le.mpr fun id hid => ?_)
  · rw [h id hid]
    exact le_deepestOf hid
  · rw [← h id hid]
    exact le_deepestOf hid

theorem isDepth_of_operands {D : NodeId → Nat} (h : ∀ o ∈ g.operands id, g.IsDepth t o (D o)) :
    g.IsDepth t id (deepestOf D (g.operands id) + if g.spends t id then 1 else 0) := by
  constructor
  · by_cases hzero : deepestOf D (g.operands id) = 0
    · exact ⟨[id], .single id, by simp [hzero, List.countP_cons]⟩
    · obtain ⟨o, ho, hdeepest⟩ := exists_deepestOf D hzero
      obtain ⟨path, hpath, hcount⟩ := (h o ho).1
      exact ⟨id :: path, .cons ho hpath, by rw [List.countP_cons, hcount, hdeepest]⟩
  · rintro n ⟨path, hpath, rfl⟩
    cases hpath with
    | single => simp [List.countP_cons]
    | @cons _ o path ho hpath =>
      rw [List.countP_cons]
      exact Nat.add_le_add_right
        (((h o ho).2 ⟨path, hpath, rfl⟩).trans (le_deepestOf ho)) _

theorem Typed.raw_operands (ht : g.Typed t) (hg : g.Sound) (hid : id ∈ g.ids)
    (hraw : t.find? id = some .raw) {o : NodeId} (ho : o ∈ g.operands id) :
    t.find? o = some .raw := by
  obtain ⟨c, hc, htype⟩ := ht id hid
  cases hc.symm.trans hraw
  obtain ⟨op, hop, htype⟩ := Except.bind_eq_ok.mp htype
  have harity := hg.arity _ ((op?_eq_ok hg.ascending).mp hop)
  have hjoin (hj : t.joinAll .raw (g.operands id) = .ok .raw) : t.find? o = some .raw := by
    obtain ⟨cs, hcs, hfold⟩ := Typing.joinAll_eq_ok.mp hj
    have hmem : t.find? o ∈ cs.map some := hcs ▸ List.mem_map_of_mem ho
    obtain ⟨k, hk, hfound⟩ := List.mem_map.mp hmem
    have hle : k ≤ .raw := hfold ▸ ValueClass.le_foldl_join.mpr (.inr ⟨k, hk, Nat.le_refl _⟩)
    rw [← hfound, ValueClass.le_raw.mp hle]
  cases op with
  | encode => cases htype
  | input | constant =>
    rw [List.length_eq_zero_iff.mp harity] at ho
    cases ho
  | _ => exact hjoin htype

theorem Typed.isDepth_raw (ht : g.Typed t) (hg : g.Sound)
    (hids : ∀ id c, t.find? id = some c → id ∈ g.ids) (hraw : t.find? id = some .raw) :
    g.IsDepth t id 0 := by
  have hspends {id : NodeId} (hraw : t.find? id = some .raw) : g.spends t id = false := by
    simp [spends, hraw]
  have hcount {path : List NodeId} (hpath : g.OperandPath id path) :
      path.countP (g.spends t) = 0 := by
    induction hpath with
    | single => simp [hspends hraw]
    | cons ho _ ih =>
      rw [List.countP_cons, ih (ht.raw_operands hg (hids _ _ hraw) hraw ho), hspends hraw]
      rfl
  refine ⟨⟨[id], .single id, hcount (.single id)⟩, ?_⟩
  rintro n ⟨path, hpath, rfl⟩
  exact (hcount hpath).le

theorem typeAlong_append {before after : List NodeId} {t' : Typing} :
    g.typeAlong (before ++ after) t = .ok t' ↔
      ∃ k, g.typeAlong before t = .ok k ∧ g.typeAlong after k = .ok t' := by
  induction before generalizing t with
  | nil => simp [typeAlong]
  | cons id before ih =>
    rw [List.cons_append, typeAlong, typeAlong, Except.bind_eq_ok]
    simp only [Except.bind_eq_ok, ih]
    constructor
    · rintro ⟨c, hc, k, hk, h⟩
      exact ⟨k, ⟨c, hc, hk⟩, h⟩
    · rintro ⟨k, ⟨c, hc, hk⟩, h⟩
      exact ⟨c, hc, k, hk, h⟩

/-- In a typed graph every operand comes before its consumer. Encodings are typed without a look at
their operand. -/
theorem operands_precede (hg : g.Sound) (ht : g.inferTypes = .ok t) {before after : List NodeId}
    (ho : g.forwardOrder = .ok (before ++ id :: after)) {op : Operation} (hop : g.op? id = .ok op)
    (hencode : ∀ scaleBits level, op ≠ .encode scaleBits level) :
    ∀ o ∈ g.operands id, o ∈ before := by
  obtain ⟨order, ho', htypes⟩ := Except.bind_eq_ok.mp ht
  cases ho'.symm.trans ho
  have hnodup : (before ++ id :: after).Nodup :=
    (forwardOrder_perm ho).nodup_iff.mpr hg.nodup
  obtain ⟨k, hbefore, hafter⟩ := typeAlong_append.mp htypes
  obtain ⟨-, hnone⟩ := typeAlong_ok (List.nodup_append.mp hnodup).1 (fun _ _ => rfl) hbefore
  obtain ⟨c, htype, -⟩ := Except.bind_eq_ok.mp hafter
  obtain ⟨_, hop', htype⟩ := Except.bind_eq_ok.mp htype
  cases hop'.symm.trans hop
  have harity := hg.arity _ ((op?_eq_ok hg.ascending).mp hop)
  have hjoin (hj : k.joinAll .raw (g.operands id) = .ok c) :
      ∀ o ∈ g.operands id, o ∈ before := by
    intro o hmem
    obtain ⟨cs, hcs, -⟩ := Typing.joinAll_eq_ok.mp hj
    have hfound : k.find? o ∈ cs.map some := hcs ▸ List.mem_map_of_mem hmem
    obtain ⟨k, -, hk⟩ := List.mem_map.mp hfound
    by_contra hout
    cases hk.trans (hnone o hout)
  cases op with
  | encode scaleBits level => exact absurd rfl (hencode scaleBits level)
  | input | constant =>
    rw [List.length_eq_zero_iff.mp harity]
    simp
  | _ => exact hjoin htype

def Analysis.depthOf (a : Analysis) (id : NodeId) : Nat := (a.depths.find? id).getD 0

/-- A node is recorded with the largest depth of its operands, and one more if it spends a level. -/
theorem analyzeNode_depth {a a' : Analysis} (h : g.analyzeNode t a id = .ok a') :
    a'.depths = a.depths.insert id
        (deepestOf a.depthOf (g.operands id) + if g.spends t id then 1 else 0) ∧
      a'.requirements.depth = max a.requirements.depth
        (deepestOf a.depthOf (g.operands id) + if g.spends t id then 1 else 0) := by
  unfold analyzeNode at h
  obtain ⟨c, hc, h⟩ := Except.bind_eq_ok.mp h
  obtain ⟨op, hop, h⟩ := Except.bind_eq_ok.mp h
  have hspends : g.spends t id = (c.isCipher && isProduct op) := by
    rw [spends_eq hop, Typing.of_eq_ok.mp hc]
    cases c <;> rfl
  rw [hspends]
  dsimp only at h
  split at h
  · next hclear =>
    have hclear : c.isCipher = false := by simpa using hclear
    cases h
    rw [hclear]
    exact ⟨rfl, rfl⟩
  · next hcipher =>
    have hcipher : c.isCipher = true := by simpa using hcipher
    rw [hcipher]
    split at h
    · next hproduct =>
      obtain ⟨_, -, h⟩ := Except.bind_eq_ok.mp h
      cases h
      rw [hproduct]
      exact ⟨rfl, rfl⟩
    · next hproduct =>
      have hproduct : isProduct op = false := by simpa using hproduct
      rw [hproduct]
      split at h
      · split at h <;> cases h <;> exact ⟨rfl, rfl⟩
      · cases h
        exact ⟨rfl, rfl⟩

def reckoned (D : NodeId → Nat) (visited : List NodeId) (id : NodeId) : Nat :=
  if id ∈ visited then D id else 0

theorem reckoned_of_mem {D : NodeId → Nat} {visited : List NodeId} (h : id ∈ visited) :
    reckoned D visited id = D id :=
  if_pos h

theorem reckoned_of_not_mem {D : NodeId → Nat} {visited : List NodeId} (h : id ∉ visited) :
    reckoned D visited id = 0 :=
  if_neg h

/-- Depths along the order of execution: what the operands visited before have at the most, one more
where a level is spent, and nowhere above a limit. -/
def Reckons (g : Graph) (t : Typing) (limit : Nat) (D : NodeId → Nat) : Prop :=
  ∀ before id after, g.forwardOrder = .ok (before ++ id :: after) → D id ≤ limit ∧
    D id = deepestOf (reckoned D before) (g.operands id) + if g.spends t id then 1 else 0

theorem foldlM_analyzeNode_depth {order : List NodeId} (hnodup : order.Nodup)
    {r : KeyRequirements} {a : Analysis}
    (h : order.foldlM (g.analyzeNode t) ⟨r, ∅⟩ = .ok a) :
    (∀ o ∉ order, a.depthOf o = 0) ∧
      a.requirements.depth = max r.depth (deepestOf a.depthOf order) ∧
      ∀ before id after, order = before ++ id :: after →
        a.depthOf id = deepestOf (reckoned a.depthOf before) (g.operands id) +
          if g.spends t id then 1 else 0 := by
  induction order using List.reverseRecOn generalizing a with
  | nil =>
    cases h
    exact ⟨fun _ _ => rfl, (Nat.max_zero _).symm, by simp⟩
  | append_singleton order last ih =>
    rw [List.foldlM_append] at h
    obtain ⟨b, hb, hlast⟩ := Except.bind_eq_ok.mp h
    obtain ⟨a', ha, hnil⟩ := Except.bind_eq_ok.mp hlast
    cases hnil
    obtain ⟨hnodup, -, hnew⟩ := List.nodup_append.mp hnodup
    obtain ⟨hrest, hdeepest, hsteps⟩ := ih hnodup hb
    obtain ⟨hdepths, hdepth⟩ := analyzeNode_depth ha
    have hkeep (o : NodeId) (ho : o ≠ last) : a.depthOf o = b.depthOf o := by
      rw [Analysis.depthOf, hdepths, OrderedMap.find?_insert_of_ne ho.symm]
      rfl
    have hbefore (o : NodeId) (ho : o ∈ order) : a.depthOf o = b.depthOf o :=
      hkeep o fun heq => hnew last (heq ▸ ho) last List.mem_cons_self rfl
    have hself : a.depthOf last =
        deepestOf b.depthOf (g.operands last) + if g.spends t last then 1 else 0 := by
      rw [Analysis.depthOf, hdepths, OrderedMap.find?_insert_self]
      rfl
    refine ⟨?_, ?_, ?_⟩
    · intro o ho
      rw [List.mem_append, List.mem_singleton, not_or] at ho
      rw [hkeep o ho.2, hrest o ho.1]
    · rw [hdepth, ← hself, hdeepest, ← deepestOf_congr hbefore, deepestOf_append,
        deepestOf_singleton, Nat.max_assoc]
    · intro before id after horder
      rcases List.eq_nil_or_concat after with rfl | ⟨after, k, rfl⟩
      · -- The last node is recorded with what the others have.
        obtain ⟨rfl, hid⟩ := List.append_inj' horder rfl
        cases hid
        refine hself.trans (congrArg (· + _) (deepestOf_congr fun o _ => ?_))
        by_cases ho : o ∈ order
        · rw [reckoned_of_mem ho, hbefore o ho]
        · rw [reckoned_of_not_mem ho, hrest o ho]
      · rw [List.concat_eq_append, ← List.cons_append, ← List.append_assoc] at horder
        obtain ⟨rfl, -⟩ := List.append_inj' horder rfl
        rw [hbefore id (by simp)]
        refine (hsteps before id after rfl).trans (congrArg (· + _) ?_)
        refine deepestOf_congr fun o _ => ?_
        by_cases ho : o ∈ before
        · rw [reckoned_of_mem ho, reckoned_of_mem ho, hbefore o (by simp [ho])]
        · rw [reckoned_of_not_mem ho, reckoned_of_not_mem ho]

theorem exists_depths (hg : g.Sound) {r : KeyRequirements} (h : g.requirements t = .ok r) :
    ∃ D, g.Reckons t r.depth D ∧
      ∃ order, g.forwardOrder = .ok order ∧ r.depth = deepestOf D order := by
  unfold requirements at h
  obtain ⟨order, ho, h⟩ := Except.bind_eq_ok.mp h
  obtain ⟨a, ha, h⟩ := Except.bind_eq_ok.mp h
  cases h
  have hnodup : order.Nodup := (forwardOrder_perm ho).nodup_iff.mpr hg.nodup
  obtain ⟨-, hdeepest, hsteps⟩ := foldlM_analyzeNode_depth hnodup ha
  have hdepth : a.requirements.depth = deepestOf a.depthOf order :=
    hdeepest.trans (Nat.zero_max _)
  refine ⟨a.depthOf, fun before id after horder => ?_, order, ho, hdepth⟩
  cases ho.symm.trans horder
  exact ⟨hdepth ▸ le_deepestOf (by simp), hsteps before id after rfl⟩

theorem exists_reckons (hg : g.Sound) {r : KeyRequirements} (h : g.requirements t = .ok r) :
    ∃ D, g.Reckons t r.depth D :=
  (exists_depths hg h).imp fun _ h => h.1

end CipherGraph.Graph

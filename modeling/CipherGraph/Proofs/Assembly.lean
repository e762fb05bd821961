import CipherGraph.Proofs.Freeing

/-! # Inputs from several parties

Valuations without a common name merge in any order. What comes out is known name by name, and an
execution looks at nothing else.
-/

namespace CipherGraph

namespace OrderedMap

variable {κ α : Type} [DecidableEq κ] {m m' : OrderedMap κ α}

theorem perm_entries (hm : m.keys.Nodup) (hm' : m'.keys.Nodup)
    (h : ∀ k, m'.find? k = m.find? k) : m'.entries.Perm m.entries := by
  refine (List.perm_ext_iff_of_nodup (hm'.of_map _) (hm.of_map _)).mpr fun ⟨k, x⟩ => ?_
  rw [← find?_eq_some hm', ← find?_eq_some hm, h]

theorem key_eq_of_find?_eq (hm : m.values.Nodup) {k k' : κ} {x : α} (h : m.find? k = some x)
    (h' : m.find? k' = some x) : k = k' :=
  congrArg Prod.fst (List.inj_on_of_nodup_map hm (mem_of_lookup h) (mem_of_lookup h') rfl)

end OrderedMap

/-- The elements before the first that does not go with one of them go with each other. -/
theorem exists_first_clash {α : Type} {R : α → α → Prop} {l : List α} (h : ¬ l.Pairwise R) :
    ∃ before a after, l = before ++ a :: after ∧ before.Pairwise R ∧ ∃ b ∈ before, ¬ R b a := by
  induction l using List.reverseRecOn with
  | nil => exact absurd .nil h
  | append_singleton l a ih =>
    by_cases hl : l.Pairwise R
    · refine ⟨l, a, [], rfl, hl, ?_⟩
      by_contra hall
      push Not at hall
      exact h (List.pairwise_append.mpr
        ⟨hl, List.pairwise_singleton R a, fun b hb c hc => List.mem_singleton.mp hc ▸ hall b hb⟩)
    · obtain ⟨before, b, after, rfl, hbefore, hb⟩ := ih hl
      exact ⟨before, b, after ++ [a], by simp, hbefore, hb⟩

namespace SchemeValuation

variable {S : Scheme} {v w p merged merged' : SchemeValuation S}
  {parts order rest : List (SchemeValuation S)} {names : List String} {name : String}

/-- Merges what the parties supply one after the other, up to the first that supplies a name once
more. -/
def mergeAll (v : SchemeValuation S) :
    List (SchemeValuation S) → SchemeValuation S × Except ExecError Unit
  | [] => (v, .ok ())
  | p :: rest =>
    match v.merge p .disjoint with
    | .ok v => v.mergeAll rest
    | .error e => (v, .error e)

/-- No two of the parties supply the same name. -/
def Apart (parts : List (SchemeValuation S)) : Prop :=
  parts.Pairwise fun p q => p.keys.Disjoint q.keys

/-- What the parties supply, one after the other. -/
def pooled (parts : List (SchemeValuation S)) : SchemeValuation S :=
  ⟨parts.flatMap OrderedMap.entries⟩

theorem keys_pooled : (pooled parts).keys = parts.flatMap OrderedMap.keys := by
  rw [OrderedMap.keys, pooled, List.map_flatMap]
  rfl

theorem nodup_pooled (hparts : ∀ p ∈ parts, p.keys.Nodup) (h : Apart parts) :
    (pooled parts).keys.Nodup := by
  rw [keys_pooled]
  exact List.nodup_flatMap.mpr ⟨hparts, h⟩

theorem find?_pooled (hparts : ∀ p ∈ parts, p.keys.Nodup) (h : Apart parts) {x : Value S} :
    (pooled parts).find? name = some x ↔ ∃ p ∈ parts, p.find? name = some x := by
  rw [OrderedMap.find?_eq_some (nodup_pooled hparts h), pooled, List.mem_flatMap]
  exact exists_congr fun p => and_congr_right fun hp =>
    (OrderedMap.find?_eq_some (hparts p hp)).symm

theorem merge_disjoint (h : (v.keys ++ p.keys).Nodup) :
    v.merge p .disjoint = .ok ⟨v.entries ++ p.entries⟩ := by
  have hnew : p.keys.find? (fun name => v.contains name) = none := by
    rw [List.find?_eq_none]
    intro name hname hheld
    exact List.disjoint_of_nodup_append h (OrderedMap.contains_iff.mp hheld) hname
  unfold merge
  rw [hnew]
  exact congrArg Except.ok (congrArg OrderedMap.mk (OrderedMap.foldl_insert h))

theorem merge_clash (h : ¬ v.keys.Disjoint p.keys) : ∃ name ∈ v.keys, name ∈ p.keys ∧
    v.merge p .disjoint = .error (.configuration (.suppliedTwice name)) := by
  cases hfind : p.keys.find? fun name => v.contains name with
  | none =>
    refine absurd (fun name hheld hname => ?_) h
    exact List.find?_eq_none.mp hfind name hname (OrderedMap.contains_iff.mpr hheld)
  | some name =>
    refine ⟨name, OrderedMap.contains_iff.mp ?_, List.mem_of_find?_eq_some hfind, ?_⟩
    · exact List.find?_some hfind
    · unfold merge
      rw [hfind]

theorem mergeAll_append (h : v.mergeAll order = (w, .ok ())) :
    v.mergeAll (order ++ rest) = w.mergeAll rest := by
  induction order generalizing v with
  | nil =>
    cases h
    rfl
  | cons p order ih =>
    unfold mergeAll at h
    rw [List.cons_append, mergeAll]
    split at h
    · next hmerge =>
      exact ih h
    · cases h

theorem mergeAll_apart (hparts : ∀ p ∈ parts, p.keys.Nodup) (h : Apart parts) :
    mergeAll ∅ parts = (pooled parts, .ok ()) := by
  induction parts using List.reverseRecOn with
  | nil => rfl
  | append_singleton parts p ih =>
    have hnodup := nodup_pooled hparts h
    have hpooled : pooled (parts ++ [p]) = ⟨(pooled parts).entries ++ p.entries⟩ := by
      simp [pooled]
    rw [mergeAll_append (ih (fun q hq => hparts q (List.mem_append_left _ hq))
      (List.pairwise_append.mp h).1), mergeAll, merge_disjoint, hpooled]
    · rfl
    · rw [hpooled] at hnodup
      simpa [OrderedMap.keys] using hnodup

theorem map_fst_filterMap_find? (v : SchemeValuation S) (names : List String) :
    (names.filterMap fun name => (v.find? name).map fun x => (name, x)).map (·.1) =
      names.filter fun name => v.contains name := by
  induction names with
  | nil => rfl
  | cons name names ih => cases h : v.find? name <;> simp [h, OrderedMap.contains, ih]

theorem entries_subset (hnames : names.Nodup) : (v.subset names).entries =
    names.filterMap fun name => (v.find? name).map fun x => (name, x) :=
  OrderedMap.entries_ofList (map_fst_filterMap_find? v names ▸ hnames.filter _)

theorem keys_subset (hnames : names.Nodup) :
    (v.subset names).keys = names.filter fun name => v.contains name := by
  rw [OrderedMap.keys, entries_subset hnames, map_fst_filterMap_find?]

theorem find?_subset (hnames : names.Nodup) {x : Value S} :
    (v.subset names).find? name = some x ↔ name ∈ names ∧ v.find? name = some x := by
  rw [OrderedMap.find?_eq_some (keys_subset hnames ▸ hnames.filter _), entries_subset hnames]
  simp only [List.mem_filterMap, Option.map_eq_some_iff, Prod.mk.injEq]
  constructor
  · rintro ⟨_, hname, _, hx, rfl, rfl⟩
    exact ⟨hname, hx⟩
  · rintro ⟨hname, hx⟩
    exact ⟨name, hname, x, hx, rfl, rfl⟩

theorem subset_congr (h : ∀ name, w.find? name = v.find? name) (names : List String) :
    w.subset names = v.subset names := by
  unfold subset
  simp only [h]

end SchemeValuation

namespace Machine

variable {S : Scheme} {m m' k k' : Machine S} {left : Remaining} {v v' : Vault} {node : NodeId}

/-- Machines that hold the same under each id, whatever the order. -/
structure Twin (m k : Machine S) : Prop where
  graph : k.graph = m.graph
  keys : k.keys = m.keys
  values : ∀ id, k.values.find? id = m.values.find? id

theorem Twin.refl (m : Machine S) : m.Twin m := ⟨rfl, rfl, fun _ => rfl⟩

theorem Twin.trans (h : m.Twin m') (h' : m'.Twin k) : m.Twin k :=
  ⟨h'.graph.trans h.graph, h'.keys.trans h.keys, fun id => (h'.values id).trans (h.values id)⟩

theorem Twin.put (h : m.Twin k) (node : NodeId) (x : Value S) :
    (m.put node x).Twin (k.put node x) where
  graph := h.graph
  keys := h.keys
  values id := by
    rw [Machine.put, Machine.put, OrderedMap.find?_insert, OrderedMap.find?_insert, h.values id]

theorem Twin.free (h : m.Twin k) (node : NodeId) : (m.free node).Twin (k.free node) where
  graph := h.graph
  keys := h.keys
  values id := by
    rw [Machine.free, Machine.free, OrderedMap.find?_erase, OrderedMap.find?_erase, h.values id]

theorem Twin.record (h : m.Twin k) (node : NodeId) (x : Option (Value S)) :
    (m.record node x).Twin (k.record node x) := by
  cases x with
  | none => exact h
  | some x => exact h.put node x

theorem Twin.visit_ok (h : m.Twin k) (hvisit : Runs (m.visit node) v (.ok m') v') :
    ∃ k', Runs (k.visit node) v (.ok k') v' ∧ m'.Twin k' := by
  obtain ⟨x, hx, rfl⟩ := runs_visit_ok.mp hvisit
  rw [← computed_congr h.graph h.keys (h.values node) fun o _ => h.values o] at hx
  exact ⟨_, runs_visit_ok.mpr ⟨x, hx, rfl⟩, h.record node x⟩

theorem Twin.visit_error (h : m.Twin k) {e : ExecError}
    (hvisit : Runs (m.visit node) v (.error e) v') : Runs (k.visit node) v (.error e) v' := by
  rw [runs_visit_error] at hvisit ⊢
  rwa [computed_congr h.graph h.keys (h.values node) fun o _ => h.values o]

theorem Twin.freeOperands (h : m.Twin k) (left : Remaining) (operands : List NodeId) :
    (m.freeOperands left operands).1.Twin (k.freeOperands left operands).1 ∧
      (k.freeOperands left operands).2 = (m.freeOperands left operands).2 := by
  induction operands generalizing m k left with
  | nil => exact ⟨h, rfl⟩
  | cons operand rest ih =>
    unfold Machine.freeOperands
    split
    · exact ih h left
    · dsimp only
      rw [h.graph]
      split
      · exact ih (h.free operand) _
      · exact ih h _

theorem Twin.visitAll (h : m.Twin k) (left : Remaining) (order : List NodeId) (v : Vault) :
    ∃ m' k' r v', (m.visitAll left order).run v = ((m', r), v') ∧
      (k.visitAll left order).run v = ((k', r), v') ∧ m'.Twin k' := by
  induction order generalizing m k left v with
  | nil => exact ⟨m, k, .ok (), v, rfl, rfl, h⟩
  | cons node rest ih =>
    obtain ⟨r, v₁, hvisit⟩ := runs_exists (m.visit node) v
    cases r with
    | error e =>
      exact ⟨m, k, .error e, v₁, visitAll_of_visit_error hvisit,
        visitAll_of_visit_error (h.visit_error hvisit), h⟩
    | ok m₁ =>
      obtain ⟨k₁, hvisit', h₁⟩ := h.visit_ok hvisit
      obtain ⟨hfreed, hleft⟩ := h₁.freeOperands left (m₁.graph.operands node)
      obtain ⟨m', k', r, v', hm, hk, hend⟩ :=
        ih hfreed (m₁.freeOperands left (m₁.graph.operands node)).2 v₁
      rw [← hleft, ← h₁.graph] at hk
      exact ⟨m', k', r, v', (visitAll_of_visit_ok hvisit).trans hm,
        (visitAll_of_visit_ok hvisit').trans hk, hend⟩

theorem Twin.run (h : m.Twin k) (v : Vault) :
    ∃ m' k' r v', m.run.run v = ((m', r), v') ∧ k.run.run v = ((k', r), v') := by
  cases ho : m.graph.forwardOrder with
  | error e =>
    refine ⟨m, k, .error (.graph e), v, ?_, ?_⟩
    · unfold Machine.run
      rw [ho]
      rfl
    · unfold Machine.run
      rw [h.graph, ho]
      rfl
  | ok order =>
    obtain ⟨m', k', r, v', hm, hk, hend⟩ := h.visitAll m.graph.useCounts order v
    have ho' := ho
    rw [← h.graph] at ho' hk
    cases r with
    | error e => exact ⟨m', k', .error e, v', run_of_failure ho hm, run_of_failure ho' hk⟩
    | ok u =>
      have hout : k'.outputs v' = m'.outputs v' := by
        unfold Machine.outputs
        rw [hend.graph]
        exact collect_congr ∅ fun e _ => hend.values e.2
      have hrun := run_of_visited ho' hk
      rw [hout] at hrun
      exact ⟨m', k', _, v', run_of_visited ho hm, hrun⟩

theorem bindAll_cons_ok {l : List (String × Value S)} {name : String} {x : Value S}
    (h : m.bindAll ((name, x) :: l) = (m', .ok ())) :
    ∃ node, m.graph.inputs.find? name = some node ∧
      (∀ c, x = .cipher c → S.keyId c = m.keys.keyId) ∧
        (m.put node x).bindAll l = (m', .ok ()) := by
  unfold bindAll at h
  split at h
  · next h₁ =>
    obtain ⟨node, hnode, hkey, rfl⟩ := bind_eq_ok.mp h₁
    exact ⟨node, hnode, hkey, h⟩
  · cases h

theorem Twin.bindAll_cons (h : m.Twin k) {l : List (String × Value S)} {name : String}
    {x : Value S} (hnode : m.graph.inputs.find? name = some node)
    (hkey : ∀ c, x = .cipher c → S.keyId c = m.keys.keyId) :
    k.bindAll ((name, x) :: l) = (k.put node x).bindAll l := by
  rw [← h.graph] at hnode
  rw [← h.keys] at hkey
  exact Machine.bindAll_cons hnode hkey

theorem Twin.bindAll (h : m.Twin k) {l : List (String × Value S)}
    (hbound : m.bindAll l = (m', .ok ())) : ∃ k', k.bindAll l = (k', .ok ()) ∧ m'.Twin k' := by
  induction l generalizing m k with
  | nil =>
    cases hbound
    exact ⟨k, rfl, h⟩
  | cons e l ih =>
    obtain ⟨node, hnode, hkey, hrest⟩ := bindAll_cons_ok hbound
    rw [h.bindAll_cons hnode hkey]
    exact ih (h.put node e.2) hrest

theorem bindAll_perm {l l' : List (String × Value S)} (hperm : l.Perm l')
    (hinputs : m.graph.inputs.values.Nodup) (hl : (l.map (·.1)).Nodup)
    (hbound : m.bindAll l = (m', .ok ())) : ∃ k, m.bindAll l' = (k, .ok ()) ∧ m'.Twin k := by
  induction hperm generalizing m m' with
  | nil => exact ⟨m', hbound, .refl m'⟩
  | cons e _ ih =>
    obtain ⟨node, hnode, hkey, hrest⟩ := bindAll_cons_ok hbound
    rw [Machine.bindAll_cons hnode hkey]
    exact ih (m := m.put node e.2) hinputs (List.nodup_cons.mp hl).2 hrest
  | swap e e' l =>
    obtain ⟨node', hnode', hkey', hrest⟩ := bindAll_cons_ok hbound
    obtain ⟨node, hnode, hkey, hrest⟩ := bindAll_cons_ok hrest
    have hne : node ≠ node' := by
      rintro rfl
      have hname := OrderedMap.key_eq_of_find?_eq hinputs hnode' hnode
      exact (List.nodup_cons.mp hl).1 (List.mem_cons.mpr (.inl hname))
    have hswap : ((m.put node' e'.2).put node e.2).Twin ((m.put node e.2).put node' e'.2) := by
      refine ⟨rfl, rfl, fun id => ?_⟩
      simp only [Machine.put, OrderedMap.find?_insert]
      by_cases hid : node = id
      · rw [if_pos hid, if_pos hid, if_neg fun h' => hne (hid.trans h'.symm)]
      · rw [if_neg hid, if_neg hid]
    rw [Machine.bindAll_cons (m := m) hnode hkey,
      Machine.bindAll_cons (m := m.put node e.2) hnode' hkey']
    exact hswap.bindAll hrest
  | trans h₁ _ ih₁ ih₂ =>
    obtain ⟨m₁, hm₁, htwin₁⟩ := ih₁ hinputs hl hbound
    obtain ⟨k, hk, htwin₂⟩ := ih₂ hinputs ((h₁.map (·.1)).nodup_iff.mp hl) hm₁
    exact ⟨k, hk, htwin₁.trans htwin₂⟩

end Machine

section Execution

variable {S : Scheme} {keys : Public S.kind} {g : Graph} {inputs inputs' : SchemeValuation S}
  {v v' : Vault} {r r' : Except ExecError (SchemeValuation S)}

/-- The same result, or both times a failure for the configuration. -/
def SameEnd (r r' : Except ExecError (SchemeValuation S)) : Prop :=
  r' = r ∨ ∃ fault fault', r = .error (.configuration fault) ∧
    r' = .error (.configuration fault')

theorem Starts.perm {m : Machine S} (h : Starts keys g inputs m) (hg : g.inputs.values.Nodup)
    (hnames : inputs.keys.Nodup) (hperm : inputs'.entries.Perm inputs.entries) :
    ∃ k, Starts keys g inputs' k ∧ m.Twin k := by
  obtain ⟨k, hk, htwin⟩ := Machine.bindAll_perm hperm.symm hg hnames h.bound
  exact ⟨k, ⟨h.fits, hk⟩, htwin⟩

/-- An execution depends on what each name stands for, and on nothing else about its inputs. -/
theorem execute_perm (hg : g.inputs.values.Nodup) (hnames : inputs.keys.Nodup)
    (hperm : inputs'.entries.Perm inputs.entries) (h : Runs (execute S keys g inputs) v r v') :
    ∃ r', Runs (execute S keys g inputs') v r' v' ∧ SameEnd r r' := by
  have hnames' : inputs'.keys.Nodup := (hperm.map Prod.fst).nodup_iff.mpr hnames
  by_cases hstart : ∃ m, Starts keys g inputs m
  · obtain ⟨m, hm⟩ := hstart
    obtain ⟨k, hk, htwin⟩ := hm.perm hg hnames hperm
    obtain ⟨m', hrun⟩ := (runs_execute_of_starts hm).mp h
    obtain ⟨_, k', _, _, hm', hk'⟩ := htwin.run v
    cases hrun.symm.trans hm'
    exact ⟨r, (runs_execute_of_starts hk).mpr ⟨k', hk'⟩, .inl rfl⟩
  · obtain ⟨fault, rfl, rfl⟩ := (starts_or_configuration h).resolve_left hstart
    have hstart' : ¬ ∃ k, Starts keys g inputs' k := by
      rintro ⟨k, hk⟩
      obtain ⟨m, hm, -⟩ := hk.perm hg hnames' hperm.symm
      exact hstart ⟨m, hm⟩
    obtain ⟨r', v₁, hrun⟩ := runs_exists (execute S keys g inputs') v'
    obtain ⟨fault', rfl, rfl⟩ := (starts_or_configuration hrun).resolve_left hstart'
    exact ⟨_, hrun, .inr ⟨fault, fault', rfl, rfl⟩⟩

end Execution

/-- Where no id has been handed out twice, each input has a node of its own. -/
theorem Graph.Reachable.nodup_inputs {g : Graph} (hg : g.Reachable) (hv : g.hidden = []) :
    g.inputs.values.Nodup := by
  refine (hg.sound.inputs.of_map _).map_on ?_
  rintro ⟨name, id⟩ he ⟨name', _⟩ he' rfl
  obtain ⟨type, hn⟩ := (hg.named hv).inputs name id he
  obtain ⟨type', hn'⟩ := (hg.named hv).inputs name' id he'
  cases hg.sound.node_eq hn hn' rfl
  rfl

namespace SchemeValuation

variable {S : Scheme} {parts order order' : List (SchemeValuation S)}

theorem Apart.perm (h : Apart parts) (horder : order.Perm parts) : Apart order :=
  (horder.pairwise_iff fun hpq => hpq.symm).mpr h

theorem contains_pooled {name : String} :
    (pooled parts).contains name = parts.any (·.contains name) := by
  rw [Bool.eq_iff_iff, OrderedMap.contains_iff, keys_pooled, List.mem_flatMap, List.any_eq_true]
  simp only [OrderedMap.contains_iff]

/-- A look-up does not tell the order in which parties apart from each other came. -/
theorem find?_pooled_perm (hparts : ∀ p ∈ parts, p.keys.Nodup) (h : Apart parts)
    (horder : order.Perm parts) (name : String) :
    (pooled order).find? name = (pooled parts).find? name := by
  have horder' : ∀ p ∈ order, p.keys.Nodup := fun p hp => hparts p (horder.mem_iff.mp hp)
  refine Option.ext fun x => ?_
  rw [find?_pooled horder' (h.perm horder), find?_pooled hparts h]
  simp only [horder.mem_iff]

/-- The first party that supplies a name once more is turned away, and what was merged before it
stays. -/
theorem mergeAll_clash (horder : ∀ p ∈ order, p.keys.Nodup) (h : ¬ Apart order) :
    ∃ before p after merged name, order = before ++ p :: after ∧ Apart before ∧
      mergeAll ∅ before = (merged, .ok ()) ∧ (∃ q ∈ before, name ∈ q.keys) ∧ name ∈ p.keys ∧
        merged.merge p .disjoint = .error (.configuration (.suppliedTwice name)) ∧
        mergeAll ∅ order = (merged, .error (.configuration (.suppliedTwice name))) := by
  obtain ⟨before, p, after, rfl, hbefore, q, hq, hclash⟩ := exists_first_clash h
  have hmerged := mergeAll_apart
    (fun q hq => horder q (List.mem_append_left _ hq)) hbefore
  have hshared : ¬ (pooled before).keys.Disjoint p.keys := by
    rw [keys_pooled]
    exact fun hall => hclash fun name hname => hall (List.mem_flatMap.mpr ⟨q, hq, hname⟩)
  obtain ⟨name, hheld, hname, hmerge⟩ := merge_clash hshared
  rw [keys_pooled] at hheld
  refine ⟨before, p, after, pooled before, name, rfl, hbefore, hmerged,
    List.mem_flatMap.mp hheld, hname, hmerge, ?_⟩
  rw [mergeAll_append hmerged, mergeAll, hmerge]

/-- Parties that share no name are merged in every order, and nothing that depends on names tells
one order from another. -/
theorem merged_in_any_order (parts : List (SchemeValuation S))
    (hparts : ∀ p ∈ parts, p.keys.Nodup) {order : List (SchemeValuation S)}
    (horder : order.Perm parts) :
    (Apart parts → ∃ merged, mergeAll ∅ order = (merged, .ok ()) ∧
      (∀ name x, merged.find? name = some x ↔ ∃ p ∈ parts, p.find? name = some x) ∧
      (∀ names : List String, names.Nodup →
        (merged.subset names).keys = names.filter (fun name => parts.any (·.contains name)) ∧
          ∀ name x, (merged.subset names).find? name = some x ↔
            name ∈ names ∧ ∃ p ∈ parts, p.find? name = some x) ∧
      ∀ order' : List (SchemeValuation S), order'.Perm parts →
        ∃ merged', mergeAll ∅ order' = (merged', .ok ()) ∧
          (∀ names, merged'.subset names = merged.subset names) ∧
          ∀ (keys : Public S.kind) g v r v', g.inputs.values.Nodup →
            Runs (execute S keys g merged) v r v' →
              ∃ r', Runs (execute S keys g merged') v r' v' ∧ SameEnd r r') ∧
    (¬ Apart parts → ∃ before p after merged name, order = before ++ p :: after ∧
      Apart before ∧ mergeAll ∅ before = (merged, .ok ()) ∧
        (∃ q ∈ before, name ∈ q.keys) ∧ name ∈ p.keys ∧
          merged.merge p .disjoint = .error (.configuration (.suppliedTwice name)) ∧
          mergeAll ∅ order = (merged, .error (.configuration (.suppliedTwice name)))) := by
  have hall (l : List (SchemeValuation S)) (hl : l.Perm parts) : ∀ p ∈ l, p.keys.Nodup :=
    fun p hp => hparts p (hl.mem_iff.mp hp)
  refine ⟨fun h => ?_,
    fun h => mergeAll_clash (hall order horder) fun h' => h (h'.perm horder.symm)⟩
  have hfind (name : String) (x : Value S) : (pooled order).find? name = some x ↔
      ∃ p ∈ parts, p.find? name = some x := by
    rw [find?_pooled_perm hparts h horder, find?_pooled hparts h]
  refine ⟨pooled order, mergeAll_apart (hall order horder) (h.perm horder), hfind,
    fun names hnames => ⟨?_, fun name x => ?_⟩, fun order' horder' => ?_⟩
  · rw [keys_subset hnames]
    refine List.filter_congr fun name _ => ?_
    rw [contains_pooled, Bool.eq_iff_iff, List.any_eq_true, List.any_eq_true]
    simp only [horder.mem_iff]
  · rw [find?_subset hnames, hfind]
  · have hsame (name : String) : (pooled order').find? name = (pooled order).find? name := by
      rw [find?_pooled_perm hparts h horder', find?_pooled_perm hparts h horder]
    have hnodup := nodup_pooled (hall order horder) (h.perm horder)
    have hnodup' := nodup_pooled (hall order' horder') (h.perm horder')
    exact ⟨pooled order', mergeAll_apart (hall order' horder') (h.perm horder'),
      subset_congr hsame, fun keys g v r v' hg =>
        execute_perm hg hnodup (OrderedMap.perm_entries hnodup hnodup' hsame)⟩

/-- An encrypted six from one party and a nine from another. -/
def onlySix : SchemeValuation .bitwise := ⟨[("x", .cipher (Gates.Ciphertext.mk 0 0 0))]⟩

def onlyNine : SchemeValuation .bitwise := ⟨[("y", .raw [(9 : UInt8)])]⟩

theorem apart_onlySix_onlyNine : Apart [onlySix, onlyNine] :=
  List.pairwise_pair.mpr (by simp [onlySix, onlyNine, OrderedMap.keys])

/-- The difference is the same when the nine comes first; a second nine is turned away. -/
theorem merged_in_any_order_sixAndNine :
    (∃ merged out v', mergeAll ∅ [onlyNine, onlySix] = (merged, .ok ()) ∧
      Runs (execute .bitwise gateKeys gateDifference.graph sixAndNine) vaultOfSix (.ok out) v' ∧
      Runs (execute .bitwise gateKeys gateDifference.graph merged) vaultOfSix (.ok out) v') ∧
    ∃ merged name, mergeAll ∅ [onlyNine, onlySix, onlyNine] =
      (merged, .error (.configuration (.suppliedTwice name))) := by
  have hsix : onlySix.keys.Nodup := by decide
  have hnine : onlyNine.keys.Nodup := by decide
  constructor
  · obtain ⟨hmerge, -⟩ := merged_in_any_order [onlySix, onlyNine] (by simp [hsix, hnine]) (.refl _)
    obtain ⟨merged, hmerged, -, -, hother⟩ := hmerge apart_onlySix_onlyNine
    obtain ⟨merged', hmerged', -, hexecute⟩ := hother [onlyNine, onlySix] (.swap ..)
    have hrun : Runs (execute .bitwise gateKeys gateDifference.graph merged) vaultOfSix
        (.ok ⟨[("z", .cipher (Gates.Ciphertext.mk 0 1 0))]⟩)
        ⟨[⟨2, [(1, ⟨0, 3⟩), (0, ⟨0, 6⟩)], 0, 0⟩]⟩ := by
      cases hmerged
      unfold Runs
      cbv
    have hinputs := (accepted_gateDifference.reachable List.mem_cons_self).nodup_inputs rfl
    obtain ⟨r', hrun', rfl | ⟨_, _, h, -⟩⟩ := hexecute gateKeys gateDifference.graph vaultOfSix _ _
      hinputs hrun
    · cases hmerged
      exact ⟨merged', _, _, hmerged', hrun, hrun'⟩
    · cases h
  · have hclash : ¬ Apart [onlySix, onlyNine, onlyNine] := by
      intro h
      exact (List.pairwise_cons.mp (List.pairwise_cons.mp h).2).1 onlyNine List.mem_cons_self
        List.mem_cons_self List.mem_cons_self
    obtain ⟨_, -, -, merged, name, -, -, -, -, -, -, hmerged⟩ := (merged_in_any_order
      [onlySix, onlyNine, onlyNine] (by simp [hsix, hnine]) (.swap ..)).2 hclash
    exact ⟨merged, name, hmerged⟩

/-- The ids have come round: `0` was `x` and is now `y`, and both names lead to it. -/
def sharedInput : Graph :=
  { Graph.blank "a" 1 ⟨0⟩ with
    nodes := [⟨0, .input "y" .raw⟩, ⟨1, .output "z"⟩]
    hidden := [0]
    edges := [⟨⟨0, 1⟩, ⟨1, 0⟩, 0⟩]
    inputs := ⟨[("x", 0), ("y", 0)]⟩
    outputs := ⟨[("z", 1)]⟩ }

theorem assembled_sharedInput : sharedInput.Assembled := by
  have hcreate : Graph.create "a" 1 ⟨0⟩ = .ok (.blank "a" 1 ⟨0⟩) := rfl
  have h₁ := (Graph.Assembled.create hcreate).extend ⟨[0]⟩ (.input "x" .raw) [] rfl (by simp) rfl
  have h₂ := h₁.extend ⟨[0]⟩ (.input "y" .raw) [] rfl (by simp) rfl
  exact h₂.extend ⟨[1]⟩ (.output "z") [0] rfl (by decide) rfl

/-- Whoever is merged last decides what such a graph computes with. -/
theorem execute_sharedInput :
    sharedInput.Reachable ∧
      ∃ p q r s : SchemeValuation .bitwise, p.keys.Nodup ∧ q.keys.Nodup ∧ Apart [p, q] ∧
        mergeAll ∅ [p, q] = (r, .ok ()) ∧ mergeAll ∅ [q, p] = (s, .ok ()) ∧
        Runs (execute .bitwise gateKeys sharedInput r) .empty
          (.ok ⟨[("z", .raw [(4 : UInt8)])]⟩) .empty ∧
        Runs (execute .bitwise gateKeys sharedInput s) .empty
          (.ok ⟨[("z", .raw [(3 : UInt8)])]⟩) .empty := by
  refine ⟨assembled_sharedInput.reachable, ⟨[("x", .raw [(3 : UInt8)])]⟩,
    ⟨[("y", .raw [(4 : UInt8)])]⟩, _, _, by decide, by decide,
    List.pairwise_pair.mpr (by simp [OrderedMap.keys]), rfl, rfl, ?_, ?_⟩
  · unfold Runs
    with_unfolding_all rfl
  · unfold Runs
    with_unfolding_all rfl

end SchemeValuation

end CipherGraph

import CipherGraph.Proofs.Contexts
import Mathlib.Data.List.Nodup
import Mathlib.Logic.Relation

/-! # Histories of a context cache

Callers ask a cache for contexts, pass them on and drop them in any order. What is cached and held
stays cached; what the cache keeps besides is evicted at the next request.
-/

namespace CipherGraph

variable {p q : Parameters} {c d : Context} {v v' : Vault}

namespace ContextCache

variable {cache cache' : ContextCache} {inUse : Context → Bool} {r : Except ExecError Context}

theorem mem_evict : (q, c) ∈ (cache.evict p inUse).entries ↔
    (q, c) ∈ cache.entries ∧ (q = p ∨ inUse c = true) := by
  unfold evict
  rw [List.mem_filter, Bool.or_eq_true, decide_eq_true_eq]

theorem evict_sublist (cache : ContextCache) (p : Parameters) (inUse : Context → Bool) :
    (cache.evict p inUse).entries.Sublist cache.entries := List.filter_sublist

theorem find?_eq_none : cache.find? p = none ↔ ∀ c, (p, c) ∉ cache.entries := by
  unfold find?
  rw [Option.map_eq_none_iff, List.find?_eq_none]
  constructor
  · intro h c hc
    simpa using h _ hc
  · rintro h ⟨q, c⟩ hc hq
    exact h c ((of_decide_eq_true hq) ▸ hc)

theorem mem_of_find? (h : cache.find? p = some c) : (p, c) ∈ cache.entries := by
  obtain ⟨⟨q, _⟩, hq, rfl⟩ := Option.map_eq_some_iff.mp h
  obtain rfl : q = p := by simpa using List.find?_some hq
  exact List.mem_of_find?_eq_some hq

theorem find?_of_mem (hkeys : (cache.entries.map (·.1)).Nodup) (hc : (p, c) ∈ cache.entries) :
    cache.find? p = some c := by
  cases hfound : cache.find? p with
  | none => exact absurd hc (find?_eq_none.mp hfound c)
  | some d => rw [(Prod.mk.inj (List.inj_on_of_nodup_map hkeys (mem_of_find? hfound) hc rfl)).2]

theorem runs_derive {r : Except ExecError Context} (h : Runs (Exec.derive p) v r v') :
    (∃ fault, p.validate = .error fault ∧ r = .error (.configuration (.parameters fault)) ∧
      v' = v) ∨
    p.validate = .ok () ∧ r = .ok ⟨v.heaps.length, p⟩ ∧ v' = ⟨v.heaps ++ [.empty]⟩ := by
  unfold Exec.derive at h
  split at h
  · next fault hfault => exact .inl ⟨fault, hfault, runs_throw.mp h⟩
  · next hvalid =>
    rw [runs_get_bind, runs_set_bind] at h
    exact .inr ⟨hvalid, runs_pure.mp h⟩

/-- What a request comes to, once the cache is evicted: a hit, a failure, a context that finds no
room, or one that is kept. -/
inductive Answers (cache : ContextCache) (p : Parameters) (v : Vault) :
    ContextCache → Except ExecError Context → Vault → Prop where
  | hit {c : Context} (hfound : cache.find? p = some c) : Answers cache p v cache (.ok c) v
  | failed {fault : ParameterFault} (hmiss : cache.find? p = none)
      (hfault : p.validate = .error fault) :
      Answers cache p v cache (.error (.configuration (.parameters fault))) v
  | full (hmiss : cache.find? p = none) (hvalid : p.validate = .ok ())
      (hfull : cache.capacity ≤ cache.size) :
      Answers cache p v cache (.ok ⟨v.heaps.length, p⟩) ⟨v.heaps ++ [.empty]⟩
  | kept (hmiss : cache.find? p = none) (hvalid : p.validate = .ok ())
      (hroom : cache.size < cache.capacity) :
      Answers cache p v { cache with entries := cache.entries ++ [(p, ⟨v.heaps.length, p⟩)] }
        (.ok ⟨v.heaps.length, p⟩) ⟨v.heaps ++ [.empty]⟩

theorem answers_of_getOrCreate (h : (cache.getOrCreate p inUse).run v = ((cache', r), v')) :
    (cache.evict p inUse).Answers p v cache' r v' := by
  unfold ContextCache.getOrCreate at h
  dsimp only at h
  split at h
  · next c hfound =>
    cases h
    exact .hit hfound
  · next hmiss =>
    obtain ⟨made, v₁, hmade⟩ := runs_exists (Exec.derive p) v
    have hderive := runs_derive hmade
    rw [StateT.run_bind] at h
    unfold Runs at hmade
    rw [hmade] at h
    rcases hderive with ⟨fault, hfault, rfl, rfl⟩ | ⟨hvalid, rfl, rfl⟩
    · cases h
      exact .failed hmiss hfault
    · change StateT.run (if _ then _ else _) _ = _ at h
      split at h
      · next hfull =>
        cases h
        exact .full hmiss hvalid hfull
      · next hroom =>
        cases h
        exact .kept hmiss hvalid (Nat.lt_of_not_le hroom)

end ContextCache

/-- A cache, the references that callers hold, one for each time they do, and the vault. -/
structure Usage where
  cache : ContextCache
  held : List Context
  vault : Vault

namespace Usage

variable {s t : Usage} {capacity : Nat}

def inUse (s : Usage) (c : Context) : Bool := s.held.contains c

/-- One request, successful or not, one reference more or less, or what goes on elsewhere: other
contexts are derived, and heaps are put to use. -/
inductive Step : Usage → Usage → Prop where
  | request {s : Usage} {p : Parameters} {cache : ContextCache} {r : Except ExecError Context}
      {v : Vault} (h : (s.cache.getOrCreate p s.inUse).run s.vault = ((cache, r), v)) :
      Step s ⟨cache, r.toOption.toList ++ s.held, v⟩
  | acquire {s : Usage} {c : Context} (h : c ∈ s.held) : Step s { s with held := c :: s.held }
  | drop (s : Usage) (c : Context) : Step s { s with held := s.held.erase c }
  | elsewhere {s : Usage} {v : Vault} (h : s.vault.heaps.length ≤ v.heaps.length) :
      Step s { s with vault := v }

/-- States that a cache of this capacity comes to. -/
def Reachable (capacity : Nat) (s : Usage) : Prop :=
  ∃ v, Relation.ReflTransGen Step ⟨.create capacity, [], v⟩ s

/-- No more entries than fit, each under the parameters of its context, which are valid, and no two
under the same. Contexts have been derived before, so that a new one is none of them. -/
structure Tidy (capacity : Nat) (s : Usage) : Prop where
  capacity_eq : s.cache.capacity = capacity
  size_le : s.cache.size ≤ capacity
  keys : (s.cache.entries.map (·.1)).Nodup
  coherent : s.cache.Coherent
  cached : ∀ e ∈ s.cache.entries, e.2.number < s.vault.heaps.length
  issued : ∀ c ∈ s.held, c.number < s.vault.heaps.length

theorem Tidy.evict (h : s.Tidy capacity) (p : Parameters) :
    Tidy capacity { s with cache := s.cache.evict p s.inUse } where
  capacity_eq := h.capacity_eq
  size_le := (List.Sublist.length_le (s.cache.evict_sublist p s.inUse)).trans h.size_le
  keys := h.keys.sublist ((s.cache.evict_sublist p s.inUse).map _)
  coherent := h.coherent.evict
  cached e he := h.cached e ((s.cache.evict_sublist p s.inUse).subset he)
  issued := h.issued

theorem Tidy.issue (h : s.Tidy capacity) (p : Parameters) :
    Tidy capacity
      ⟨s.cache, ⟨s.vault.heaps.length, p⟩ :: s.held, ⟨s.vault.heaps ++ [.empty]⟩⟩ := by
  have hlength : (s.vault.heaps ++ [NativeHeap.empty]).length = s.vault.heaps.length + 1 :=
    List.length_append
  refine { h with cached := fun e he => ?_, issued := fun c hc => ?_ }
  · exact hlength ▸ Nat.lt_succ_of_lt (h.cached e he)
  · rcases List.mem_cons.mp hc with rfl | hc
    · exact hlength ▸ Nat.lt_succ_self _
    · exact hlength ▸ Nat.lt_succ_of_lt (h.issued c hc)

theorem Tidy.keep (h : s.Tidy capacity) (hmiss : s.cache.find? c.params = none)
    (hvalid : c.params.validate = .ok ()) (hroom : s.cache.size < s.cache.capacity)
    (hc : c ∈ s.held) :
    Tidy capacity
      { s with cache := { s.cache with entries := s.cache.entries ++ [(c.params, c)] } } := by
  refine ⟨h.capacity_eq, ?_, ?_, fun q d hq => ?_, fun e he => ?_, h.issued⟩
  · rw [ContextCache.size, List.length_append]
    exact h.capacity_eq ▸ hroom
  · rw [List.map_append, List.nodup_append]
    refine ⟨h.keys, List.nodup_singleton _, ?_⟩
    rintro q hq _ hp rfl
    obtain ⟨⟨_, d⟩, hd, rfl⟩ := List.mem_map.mp hq
    cases List.mem_singleton.mp hp
    exact ContextCache.find?_eq_none.mp hmiss d hd
  · rcases List.mem_append.mp hq with hq | hq
    · exact h.coherent q d hq
    · cases List.mem_singleton.mp hq
      exact ⟨rfl, hvalid⟩
  · rcases List.mem_append.mp he with he | he
    · exact h.cached e he
    · cases List.mem_singleton.mp he
      exact h.issued c hc

theorem Tidy.acquire (h : s.Tidy capacity) (hc : c.number < s.vault.heaps.length) :
    Tidy capacity { s with held := c :: s.held } :=
  { h with issued := List.forall_mem_cons.mpr ⟨hc, h.issued⟩ }

theorem Tidy.answers {cache : ContextCache} {r : Except ExecError Context} (h : s.Tidy capacity)
    (ha : s.cache.Answers p s.vault cache r v') :
    Tidy capacity ⟨cache, r.toOption.toList ++ s.held, v'⟩ := by
  cases ha with
  | hit hfound => exact h.acquire (h.cached _ (ContextCache.mem_of_find? hfound))
  | failed => exact h
  | full => exact h.issue p
  | kept hmiss hvalid hroom => exact (h.issue p).keep hmiss hvalid hroom List.mem_cons_self

theorem Tidy.step (h : s.Tidy capacity) (hstep : Step s t) : t.Tidy capacity := by
  cases hstep with
  | request hrun => exact (h.evict _).answers (ContextCache.answers_of_getOrCreate hrun)
  | acquire hc => exact h.acquire (h.issued _ hc)
  | drop c => exact { h with issued := fun d hd => h.issued d (List.mem_of_mem_erase hd) }
  | elsewhere hlength =>
    exact { h with
      cached := fun e he => (h.cached e he).trans_le hlength
      issued := fun c hc => (h.issued c hc).trans_le hlength }

theorem Reachable.tidy (h : s.Reachable capacity) : s.Tidy capacity := by
  obtain ⟨v, h⟩ := h
  induction h with
  | refl => exact ⟨rfl, Nat.zero_le _, List.nodup_nil, nofun, nofun, nofun⟩
  | tail _ hstep ih => exact ih.step hstep

/-- What a caller who asks for a context can rely on. -/
structure Serves (s : Usage) (p : Parameters) (cache : ContextCache)
    (r : Except ExecError Context) (v : Vault) : Prop where
  /-- What is held is not evicted. -/
  keeps : ∀ q c, (q, c) ∈ s.cache.entries → c ∈ s.held → (q, c) ∈ cache.entries
  /-- What is kept is asked for or held. -/
  evicts : ∀ q c, (q, c) ∈ cache.entries → q = p ∨ c ∈ s.held
  /-- What is cached is handed out, and nothing changes but for the eviction. -/
  hit : ∀ c, (p, c) ∈ s.cache.entries →
    r = .ok c ∧ cache = s.cache.evict p s.inUse ∧ v = s.vault
  /-- What is not cached is derived anew if the parameters are valid. -/
  miss : (∀ c, (p, c) ∉ s.cache.entries) → p.validate = .ok () → ∃ c, r = .ok c ∧ c.params = p ∧
    c ∉ s.held ∧ ∀ q, (q, c) ∉ s.cache.entries
  /-- What is handed out without being kept finds the cache full of contexts in use. -/
  uncached : ∀ c, r = .ok c → (p, c) ∉ cache.entries →
    cache.size = s.cache.capacity ∧ ∀ e ∈ cache.entries, e.2 ∈ s.held
  /-- Where a derivation fails, nothing is inserted. -/
  failed : ∀ e, r = .error e →
    (∃ fault, p.validate = .error fault ∧ e = .configuration (.parameters fault)) ∧
      cache = s.cache.evict p s.inUse ∧ v = s.vault

theorem inUse_iff : s.inUse c = true ↔ c ∈ s.held := List.contains_iff_mem

theorem kept_of_evict (hq : (q, c) ∈ (s.cache.evict p s.inUse).entries) : q = p ∨ c ∈ s.held :=
  (ContextCache.mem_evict.mp hq).2.imp_right inUse_iff.mp

theorem evict_of_held (hq : (q, c) ∈ s.cache.entries) (hc : c ∈ s.held) :
    (q, c) ∈ (s.cache.evict p s.inUse).entries :=
  ContextCache.mem_evict.mpr ⟨hq, .inr (inUse_iff.mpr hc)⟩

theorem Tidy.find?_evict (h : s.Tidy capacity) (hc : (p, c) ∈ s.cache.entries) :
    (s.cache.evict p s.inUse).find? p = some c :=
  ContextCache.find?_of_mem (h.evict p).keys (ContextCache.mem_evict.mpr ⟨hc, .inl rfl⟩)

theorem Tidy.next_new (h : s.Tidy capacity) (p : Parameters) :
    ∃ c : Context, Except.ok (ε := ExecError) ⟨s.vault.heaps.length, p⟩ = .ok c ∧ c.params = p ∧
      c ∉ s.held ∧ ∀ q, (q, c) ∉ s.cache.entries :=
  ⟨_, rfl, rfl, fun hc => Nat.lt_irrefl _ (h.issued _ hc),
    fun _ hq => Nat.lt_irrefl _ (h.cached _ hq)⟩

theorem Tidy.serves_hit (h : s.Tidy capacity)
    (hfound : (s.cache.evict p s.inUse).find? p = some d) :
    s.Serves p (s.cache.evict p s.inUse) (.ok d) s.vault where
  keeps _ _ := evict_of_held
  evicts _ _ := kept_of_evict
  hit c hc := by
    cases hfound.symm.trans (h.find?_evict hc)
    exact ⟨rfl, rfl, rfl⟩
  miss hmiss _ :=
    absurd (ContextCache.mem_evict.mp (ContextCache.mem_of_find? hfound)).1 (hmiss d)
  uncached := by
    rintro _ ⟨⟩ hc
    exact absurd (ContextCache.mem_of_find? hfound) hc
  failed := nofun

theorem Tidy.serves_failed {fault : ParameterFault} (h : s.Tidy capacity)
    (hmiss : (s.cache.evict p s.inUse).find? p = none) (hfault : p.validate = .error fault) :
    s.Serves p (s.cache.evict p s.inUse) (.error (.configuration (.parameters fault)))
      s.vault where
  keeps _ _ := evict_of_held
  evicts _ _ := kept_of_evict
  hit c hc := nomatch hmiss.symm.trans (h.find?_evict hc)
  miss _ hvalid := nomatch hfault.symm.trans hvalid
  uncached := nofun
  failed := by
    rintro _ ⟨⟩
    exact ⟨⟨fault, hfault, rfl⟩, rfl, rfl⟩

theorem Tidy.serves_full (h : s.Tidy capacity)
    (hmiss : (s.cache.evict p s.inUse).find? p = none)
    (hfull : s.cache.capacity ≤ (s.cache.evict p s.inUse).size) :
    s.Serves p (s.cache.evict p s.inUse) (.ok ⟨s.vault.heaps.length, p⟩) v where
  keeps _ _ := evict_of_held
  evicts _ _ := kept_of_evict
  hit c hc := nomatch hmiss.symm.trans (h.find?_evict hc)
  miss _ _ := h.next_new p
  uncached _ _ _ := by
    have hsize := (h.evict p).size_le.trans_eq h.capacity_eq.symm
    refine ⟨Nat.le_antisymm hsize hfull, fun e he => (kept_of_evict he).resolve_left fun hp => ?_⟩
    exact ContextCache.find?_eq_none.mp hmiss e.2 (hp ▸ he)
  failed := nofun

theorem Tidy.serves_kept {cache : ContextCache} (h : s.Tidy capacity)
    (hmiss : (s.cache.evict p s.inUse).find? p = none)
    (hcache : cache.entries =
      (s.cache.evict p s.inUse).entries ++ [(p, ⟨s.vault.heaps.length, p⟩)]) :
    s.Serves p cache (.ok ⟨s.vault.heaps.length, p⟩) v where
  keeps _ _ hq hc := hcache ▸ List.mem_append_left _ (evict_of_held hq hc)
  evicts q c hq := by
    rcases List.mem_append.mp (hcache ▸ hq) with hq | hq
    · exact kept_of_evict hq
    · cases List.mem_singleton.mp hq
      exact .inl rfl
  hit c hc := nomatch hmiss.symm.trans (h.find?_evict hc)
  miss _ _ := h.next_new p
  uncached := by
    rintro _ ⟨⟩ hc
    exact absurd (hcache ▸ List.mem_append_right _ List.mem_cons_self) hc
  failed := nofun

theorem Tidy.serves {cache : ContextCache} {r : Except ExecError Context} (h : s.Tidy capacity)
    (hrun : (s.cache.getOrCreate p s.inUse).run s.vault = ((cache, r), v)) :
    s.Serves p cache r v := by
  cases ContextCache.answers_of_getOrCreate hrun with
  | hit hfound => exact h.serves_hit hfound
  | failed hmiss hfault => exact h.serves_failed hmiss hfault
  | full hmiss _ hfull => exact h.serves_full hmiss hfull
  | kept hmiss _ _ => exact h.serves_kept hmiss rfl

theorem Tidy.cached_while_held (h : s.Tidy capacity) (hc : (p, c) ∈ s.cache.entries)
    (hcourse : Relation.ReflTransGen (fun a b => Step a b ∧ c ∈ a.held) s t) :
    t.Tidy capacity ∧ (p, c) ∈ t.cache.entries := by
  induction hcourse with
  | refl => exact ⟨h, hc⟩
  | @tail a b _ hstep ih =>
    obtain ⟨ha, hca⟩ := ih
    refine ⟨ha.step hstep.1, ?_⟩
    rcases hstep with ⟨hrun | _ | _ | _, hheld⟩
    · exact (ha.serves hrun).keeps p c hca hheld
    all_goals exact hca

/-- Whatever callers did before, the cache is in order and every request is served. A cached context
that somebody goes on holding stays cached, and all who ask for it in the meantime get it. -/
theorem cache_history (h : s.Reachable capacity) :
    s.Tidy capacity ∧
    (∀ p cache r v, (s.cache.getOrCreate p s.inUse).run s.vault = ((cache, r), v) →
      s.Serves p cache r v) ∧
    ∀ p c t, (p, c) ∈ s.cache.entries →
      Relation.ReflTransGen (fun a b => Step a b ∧ c ∈ a.held) s t →
        (p, c) ∈ t.cache.entries ∧ ∀ cache r v,
          (t.cache.getOrCreate p t.inUse).run t.vault = ((cache, r), v) → r = .ok c := by
  refine ⟨h.tidy, fun p cache r v hrun => h.tidy.serves hrun, fun p c t hc hcourse => ?_⟩
  obtain ⟨ht, hct⟩ := h.tidy.cached_while_held hc hcourse
  exact ⟨hct, fun cache r v hrun => ((ht.serves hrun).hit c hct).1⟩

/-- A cache with room for one context, which is held. -/
def fullUsage : Usage :=
  ⟨⟨1, [(.bitwise 3, ⟨0, .bitwise 3⟩)]⟩, [⟨0, .bitwise 3⟩], ⟨[.empty]⟩⟩

theorem reachable_fullUsage : fullUsage.Reachable 1 :=
  ⟨.empty, .single (.request (s := ⟨.create 1, [], .empty⟩) (p := .bitwise 3) rfl)⟩

/-- A second context finds no room, and the first is still there for those who ask for it. -/
theorem cache_history_fullUsage :
    ∃ t, fullUsage.Step t ∧ t.held = [⟨1, .bitwise 4⟩, ⟨0, .bitwise 3⟩] ∧ t.cache.size = 1 ∧
      ∀ cache r v, (t.cache.getOrCreate (.bitwise 3) t.inUse).run t.vault = ((cache, r), v) →
        r = .ok ⟨0, .bitwise 3⟩ := by
  obtain ⟨-, hserves, hkept⟩ := cache_history reachable_fullUsage
  have hrun : (fullUsage.cache.getOrCreate (.bitwise 4) fullUsage.inUse).run fullUsage.vault =
      ((fullUsage.cache, .ok ⟨1, .bitwise 4⟩), ⟨[.empty, .empty]⟩) := rfl
  refine ⟨_, .request hrun, rfl, ((hserves _ _ _ _ hrun).uncached _ rfl (by decide)).1, ?_⟩
  exact (hkept _ _ _ List.mem_cons_self (.single ⟨.request hrun, List.mem_cons_self⟩)).2

end Usage

end CipherGraph

import CipherGraph.IdSpace
import Mathlib

/-! # Runs of computations

A computation with a state ends in a state of its own, whether it succeeds or fails. Runs of
composed computations split into the runs of their parts. The equations of the state monad, by
which the runs of closed programs are evaluated, come with the whole of Mathlib.
-/

namespace CipherGraph

variable {ε σ α β : Type}

namespace Except

theorem bind_eq_ok {x : Except ε α} {f : α → Except ε β} {b : β} :
    x >>= f = .ok b ↔ ∃ a, x = .ok a ∧ f a = .ok b := by
  cases x <;> simp [bind, Except.bind]

theorem bind_eq_error {x : Except ε α} {f : α → Except ε β} {e : ε} :
    x >>= f = .error e ↔ x = .error e ∨ ∃ a, x = .ok a ∧ f a = .error e := by
  cases x <;> simp [bind, Except.bind]

theorem pure_eq_ok {a b : α} : (pure a : Except ε α) = .ok b ↔ a = b := by
  simp [pure, Except.pure]

end Except

theorem length_mapM {f : α → Except ε β} {l : List α} {l' : List β} (h : l.mapM f = .ok l') :
    l'.length = l.length := by
  induction l generalizing l' with
  | nil =>
    cases h
    rfl
  | cons a l ih =>
    rw [List.mapM_cons] at h
    obtain ⟨b, -, h⟩ := Except.bind_eq_ok.mp h
    obtain ⟨rest, hrest, h⟩ := Except.bind_eq_ok.mp h
    cases h
    rw [List.length_cons, ih hrest, List.length_cons]

theorem mapM_eq_ok {f : α → Except ε β} {g : α → β} {l : List α}
    (h : ∀ a ∈ l, f a = .ok (g a)) : l.mapM f = .ok (l.map g) := by
  induction l with
  | nil => rfl
  | cons a l ih =>
    obtain ⟨ha, hl⟩ := List.forall_mem_cons.mp h
    rw [List.mapM_cons, ha, ih hl]
    rfl

theorem exists_mapM_ok {f : α → Except ε β} {l : List α} (h : ∀ a ∈ l, ∃ b, f a = .ok b) :
    ∃ l', l.mapM f = .ok l' := by
  induction l with
  | nil => exact ⟨[], rfl⟩
  | cons a l ih =>
    obtain ⟨⟨b, hb⟩, htail⟩ := List.forall_mem_cons.mp h
    obtain ⟨l', hl'⟩ := ih htail
    rw [List.mapM_cons, hb, hl']
    exact ⟨b :: l', rfl⟩

theorem exists_mapM_ok_iff {f : α → Except ε β} {l : List α} :
    (∃ l', l.mapM f = .ok l') ↔ ∀ a ∈ l, ∃ b, f a = .ok b := by
  constructor
  · induction l with
    | nil => exact fun _ => nofun
    | cons a l ih =>
      rintro ⟨l', h⟩
      rw [List.mapM_cons] at h
      obtain ⟨b, hb, h⟩ := Except.bind_eq_ok.mp h
      obtain ⟨rest, hrest, -⟩ := Except.bind_eq_ok.mp h
      exact List.forall_mem_cons.mpr ⟨⟨b, hb⟩, ih ⟨rest, hrest⟩⟩
  · exact exists_mapM_ok

/-- The computation, started in `s`, ends with `r` in `s'`. -/
def Runs (m : ExceptT ε (StateM σ) α) (s : σ) (r : Except ε α) (s' : σ) : Prop :=
  m.run.run s = (r, s')

variable {s s' : σ} {r : Except ε α}

theorem runs_exists (m : ExceptT ε (StateM σ) α) (s : σ) : ∃ r s', Runs m s r s' :=
  ⟨_, _, rfl⟩

theorem Runs.unique {m : ExceptT ε (StateM σ) α} {r' : Except ε α} {s'' : σ}
    (h : Runs m s r s') (h' : Runs m s r' s'') : r = r' ∧ s' = s'' := by
  have he : (r, s') = (r', s'') := h.symm.trans h'
  exact Prod.mk.injEq .. ▸ he

@[simp] theorem runs_pure {a : α} :
    Runs (pure a : ExceptT ε (StateM σ) α) s r s' ↔ r = .ok a ∧ s' = s := by
  change ((Except.ok a, s) : Except ε α × σ) = (r, s') ↔ _
  rw [Prod.mk.injEq]
  exact and_congr eq_comm eq_comm

@[simp] theorem runs_throw {e : ε} :
    Runs (throw e : ExceptT ε (StateM σ) α) s r s' ↔ r = .error e ∧ s' = s := by
  change ((Except.error e, s) : Except ε α × σ) = (r, s') ↔ _
  rw [Prod.mk.injEq]
  exact and_congr eq_comm eq_comm

@[simp] theorem runs_get {r : Except ε σ} :
    Runs (get : ExceptT ε (StateM σ) σ) s r s' ↔ r = .ok s ∧ s' = s := by
  change ((Except.ok s, s) : Except ε σ × σ) = (r, s') ↔ _
  rw [Prod.mk.injEq]
  exact and_congr eq_comm eq_comm

@[simp] theorem runs_set {t : σ} {r : Except ε PUnit} :
    Runs (set t : ExceptT ε (StateM σ) PUnit) s r s' ↔ r = .ok ⟨⟩ ∧ s' = t := by
  change ((Except.ok ⟨⟩, t) : Except ε PUnit × σ) = (r, s') ↔ _
  rw [Prod.mk.injEq]
  exact and_congr eq_comm eq_comm

@[simp] theorem runs_modify {f : σ → σ} {r : Except ε PUnit} :
    Runs (modify f : ExceptT ε (StateM σ) PUnit) s r s' ↔ r = .ok ⟨⟩ ∧ s' = f s := by
  change ((Except.ok ⟨⟩, f s) : Except ε PUnit × σ) = (r, s') ↔ _
  rw [Prod.mk.injEq]
  exact and_congr eq_comm eq_comm

@[simp] theorem runs_liftM {x : Except ε α} :
    Runs (liftM x : ExceptT ε (StateM σ) α) s r s' ↔ r = x ∧ s' = s := by
  change ((x, s) : Except ε α × σ) = (r, s') ↔ _
  rw [Prod.mk.injEq]
  exact and_congr eq_comm eq_comm

theorem runs_liftM_state {m : StateM σ α} :
    Runs (liftM m : ExceptT ε (StateM σ) α) s r s' ↔ r = .ok (m.run s).1 ∧ s' = (m.run s).2 := by
  change ((Except.ok (m.run s).1, (m.run s).2) : Except ε α × σ) = (r, s') ↔ _
  rw [Prod.mk.injEq]
  exact and_congr eq_comm eq_comm

theorem run_bind (m : ExceptT ε (StateM σ) α) (f : α → ExceptT ε (StateM σ) β) (s : σ) :
    (m >>= f).run.run s = match m.run.run s with
      | (.ok a, s₁) => (f a).run.run s₁
      | (.error e, s₁) => (.error e, s₁) := by
  simp only [ExceptT.run_bind, StateT.run_bind]
  change (match (m.run.run s).1 with
    | .ok a => (f a).run | .error e => pure (.error e) : StateM σ _).run (m.run.run s).2 = _
  rcases m.run.run s with ⟨_ | a, s₁⟩ <;> rfl

theorem runs_bind_ok {m : ExceptT ε (StateM σ) α} {f : α → ExceptT ε (StateM σ) β} {b : β} :
    Runs (m >>= f) s (.ok b) s' ↔
      ∃ a s₁, Runs m s (.ok a) s₁ ∧ Runs (f a) s₁ (.ok b) s' := by
  unfold Runs
  rw [run_bind]
  constructor
  · intro h
    rcases hm : m.run.run s with ⟨_ | a, s₁⟩ <;> rw [hm] at h
    · cases h
    · exact ⟨a, s₁, rfl, h⟩
  · rintro ⟨a, s₁, hm, hf⟩
    rw [hm]
    exact hf

theorem runs_bind_error {m : ExceptT ε (StateM σ) α} {f : α → ExceptT ε (StateM σ) β} {e : ε} :
    Runs (m >>= f) s (.error e) s' ↔
      Runs m s (.error e) s' ∨
        ∃ a s₁, Runs m s (.ok a) s₁ ∧ Runs (f a) s₁ (.error e) s' := by
  unfold Runs
  rw [run_bind]
  constructor
  · intro h
    rcases hm : m.run.run s with ⟨_ | a, s₁⟩ <;> rw [hm] at h
    · cases h
      exact .inl rfl
    · exact .inr ⟨a, s₁, rfl, h⟩
  · rintro (hm | ⟨a, s₁, hm, hf⟩) <;> rw [hm]
    exact hf

/-- How a composed computation ends: its first part fails, or its second part follows. -/
theorem runs_bind {m : ExceptT ε (StateM σ) α} {f : α → ExceptT ε (StateM σ) β}
    {r : Except ε β} (h : Runs (m >>= f) s r s') :
    (∃ e, Runs m s (.error e) s' ∧ r = .error e) ∨
      ∃ a s₁, Runs m s (.ok a) s₁ ∧ Runs (f a) s₁ r s' := by
  cases r with
  | ok b => exact .inr (runs_bind_ok.mp h)
  | error e =>
    rcases runs_bind_error.mp h with h | h
    · exact .inl ⟨e, h, rfl⟩
    · exact .inr h

/-- A first part that succeeds without fail. -/
theorem runs_bind_of_ok {m : ExceptT ε (StateM σ) α} {f : α → ExceptT ε (StateM σ) β} {a : α}
    {s₁ : σ} {r : Except ε β} (hm : Runs m s (.ok a) s₁) :
    Runs (m >>= f) s r s' ↔ Runs (f a) s₁ r s' := by
  unfold Runs at hm ⊢
  rw [run_bind, hm]

theorem runs_throw_bind {e : ε} {f : α → ExceptT ε (StateM σ) β} {r : Except ε β} :
    Runs (throw e >>= f) s r s' ↔ r = .error e ∧ s' = s := by
  constructor
  · intro h
    rcases runs_bind h with ⟨_, he, rfl⟩ | ⟨_, _, ha, -⟩
    · obtain ⟨heq, rfl⟩ := runs_throw.mp he
      cases heq
      exact ⟨rfl, rfl⟩
    · cases (runs_throw.mp ha).1
  · rintro ⟨rfl, rfl⟩
    exact runs_bind_error.mpr (.inl (runs_throw.mpr ⟨rfl, rfl⟩))

theorem runs_get_bind {f : σ → ExceptT ε (StateM σ) β} {r : Except ε β} :
    Runs (get >>= f) s r s' ↔ Runs (f s) s r s' := runs_bind_of_ok (runs_get.mpr ⟨rfl, rfl⟩)

theorem runs_set_bind {t : σ} {f : PUnit → ExceptT ε (StateM σ) β} {r : Except ε β} :
    Runs (set t >>= f) s r s' ↔ Runs (f ⟨⟩) t r s' := runs_bind_of_ok (runs_set.mpr ⟨rfl, rfl⟩)

theorem runs_modify_bind {g : σ → σ} {f : PUnit → ExceptT ε (StateM σ) β} {r : Except ε β} :
    Runs (modify g >>= f) s r s' ↔ Runs (f ⟨⟩) (g s) r s' :=
  runs_bind_of_ok (runs_modify.mpr ⟨rfl, rfl⟩)

theorem runs_foldlM {f : β → α → ExceptT ε (StateM σ) β} {next : β → α → β} {l : List α}
    (h : ∀ b, ∀ a ∈ l, Runs (f b a) s (.ok (next b a)) s) (b : β) :
    Runs (l.foldlM f b) s (.ok (l.foldl next b)) s := by
  induction l generalizing b with
  | nil => exact runs_pure.mpr ⟨rfl, rfl⟩
  | cons a l ih =>
    rw [List.foldlM_cons, runs_bind_of_ok (h b a List.mem_cons_self)]
    exact ih (fun b c hc => h b c (List.mem_cons_of_mem a hc)) (next b a)

theorem runs_mapM {f : α → ExceptT ε (StateM σ) β} {g : α → β} {l : List α}
    (h : ∀ a ∈ l, Runs (f a) s (.ok (g a)) s) : Runs (l.mapM f) s (.ok (l.map g)) s := by
  induction l with
  | nil => exact runs_pure.mpr ⟨rfl, rfl⟩
  | cons a l ih =>
    obtain ⟨ha, hl⟩ := List.forall_mem_cons.mp h
    rw [List.mapM_cons, runs_bind_of_ok ha, runs_bind_of_ok (ih hl)]
    exact runs_pure.mpr ⟨rfl, rfl⟩

theorem runs_forM_liftM {f : α → Except ε PUnit} {l : List α} {u : PUnit} :
    Runs (l.forM fun a => (liftM (f a) : ExceptT ε (StateM σ) PUnit)) s (.ok u) s' ↔
      (∀ a ∈ l, f a = .ok ⟨⟩) ∧ s' = s := by
  induction l generalizing s with
  | nil => simp [List.forM]
  | cons a l ih =>
    rw [List.forM, runs_bind_ok]
    simp only [runs_liftM, ih, List.forall_mem_cons]
    constructor
    · rintro ⟨⟨⟩, _, ⟨h, rfl⟩, hl, rfl⟩
      exact ⟨⟨h.symm, hl⟩, rfl⟩
    · rintro ⟨⟨h, hl⟩, rfl⟩
      exact ⟨⟨⟩, s', ⟨h.symm, rfl⟩, hl, rfl⟩

theorem state_of_runs_forM_liftM {f : α → Except ε PUnit} {l : List α} {r : Except ε PUnit}
    (h : Runs (l.forM fun a => (liftM (f a) : ExceptT ε (StateM σ) PUnit)) s r s') : s' = s := by
  induction l generalizing s with
  | nil => exact (runs_pure.mp h).2
  | cons a l ih =>
    rw [List.forM] at h
    rcases runs_bind h with ⟨_, h, -⟩ | ⟨_, s₁, h, hrest⟩
    · exact (runs_liftM.mp h).2
    · rw [ih hrest, (runs_liftM.mp h).2]

/-- A result that is no failure of this kind. -/
def Spares (bad : ε → Bool) (x : Except ε α) : Prop := ∀ e, x = .error e → bad e = false

/-- A computation that never ends in a failure of this kind. -/
def Avoids (bad : ε → Bool) (m : ExceptT ε (StateM σ) α) : Prop :=
  ∀ s e s', Runs m s (.error e) s' → bad e = false

section Failures

variable {bad : ε → Bool} {x : Except ε α}

theorem spares_ok (a : α) : Spares bad (.ok a : Except ε α) := fun _ h => nomatch h

theorem spares_error {e : ε} (h : bad e = false) : Spares bad (.error e : Except ε α) := by
  rintro _ ⟨⟩
  exact h

theorem Spares.bind {f : α → Except ε β} (hx : Spares bad x)
    (hf : ∀ a, x = .ok a → Spares bad (f a)) : Spares bad (x >>= f) := by
  intro e h
  rcases Except.bind_eq_error.mp h with h | ⟨a, ha, h⟩
  · exact hx e h
  · exact hf a ha e h

theorem avoids_pure (a : α) : Avoids bad (pure a : ExceptT ε (StateM σ) α) := by
  intro s e s' h
  cases (runs_pure.mp h).1

theorem avoids_throw {e : ε} (h : bad e = false) :
    Avoids bad (throw e : ExceptT ε (StateM σ) α) := by
  intro s e' s' hr
  cases (runs_throw.mp hr).1
  exact h

theorem avoids_get : Avoids bad (get : ExceptT ε (StateM σ) σ) := by
  intro s e s' h
  cases (runs_get.mp h).1

theorem avoids_set (t : σ) : Avoids bad (set t : ExceptT ε (StateM σ) PUnit) := by
  intro s e s' h
  cases (runs_set.mp h).1

theorem Spares.liftM (hx : Spares bad x) : Avoids bad (liftM x : ExceptT ε (StateM σ) α) := by
  intro s e s' h
  exact hx e (runs_liftM.mp h).1.symm

theorem Avoids.bind_of_runs {m : ExceptT ε (StateM σ) α} {f : α → ExceptT ε (StateM σ) β}
    (hm : Avoids bad m) (hf : ∀ a s s', Runs m s (.ok a) s' → Avoids bad (f a)) :
    Avoids bad (m >>= f) := by
  intro s e s' h
  rcases runs_bind_error.mp h with h | ⟨a, s₁, ha, h⟩
  · exact hm s e s' h
  · exact hf a s s₁ ha s₁ e s' h

theorem Avoids.bind {m : ExceptT ε (StateM σ) α} {f : α → ExceptT ε (StateM σ) β}
    (hm : Avoids bad m) (hf : ∀ a, Avoids bad (f a)) : Avoids bad (m >>= f) :=
  hm.bind_of_runs fun a _ _ _ => hf a

theorem Avoids.foldlM {f : β → α → ExceptT ε (StateM σ) β} {l : List α}
    (hf : ∀ b, ∀ a ∈ l, Avoids bad (f b a)) (b : β) : Avoids bad (l.foldlM f b) := by
  induction l generalizing b with
  | nil => exact avoids_pure b
  | cons a l ih =>
    rw [List.foldlM_cons]
    exact (hf b a List.mem_cons_self).bind fun b' =>
      ih (fun b c hc => hf b c (List.mem_cons_of_mem a hc)) b'

end Failures

end CipherGraph

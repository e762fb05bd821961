import CipherGraph.Command.Calculation
import CipherGraph.Proofs.Execution

/-! # Growing vaults

Computations only ever add cells to a vault. So a ciphertext that is live stays live in the course
of an execution, and where handles are handed out once, its cell stays as it is.
-/

namespace CipherGraph

theorem NativeHeap.read?_alloc (h : NativeHeap) (cell : NativeCell) (handle : Nat) :
    (h.alloc cell).2.read? handle = if h.next = handle then some cell else h.read? handle := by
  unfold alloc read?
  rw [List.find?_cons]
  split
  · next heq => rw [if_pos (of_decide_eq_true heq), Option.map_some]
  · next hne => rw [if_neg (of_decide_eq_false hne)]

theorem NativeHeap.read?_release (h : NativeHeap) {k handle : Nat} (hne : handle ≠ k) :
    (h.release k).read? handle = h.read? handle := by
  unfold release
  split
  · unfold read?
    rw [List.find?_filter]
    refine congrArg (Option.map _) (congrArg (List.find? · h.cells) (funext fun c => ?_))
    by_cases hc : c.1 = handle <;> simp [hc, hne]
  · rfl

theorem NativeHeap.issued_release (h : NativeHeap) (k : Nat) :
    (h.release k).next = h.next ∧ ∀ c ∈ (h.release k).cells, c ∈ h.cells := by
  unfold release
  split
  · exact ⟨rfl, fun c hc => (List.mem_filter.mp hc).1⟩
  · exact ⟨rfl, fun c hc => hc⟩

theorem NativeHeap.read?_sweep (h : NativeHeap) {held : List Nat} {handle : Nat}
    (hheld : handle ∈ held) : (h.sweep held).read? handle = h.read? handle := by
  unfold sweep
  refine List.foldlRecOn _ release (motive := fun k => k.read? handle = h.read? handle) rfl
    fun k hk other hother => ?_
  rw [k.read?_release, hk]
  rintro rfl
  simp [hheld] at hother

theorem NativeHeap.issued_sweep (h : NativeHeap) (held : List Nat) :
    (h.sweep held).next = h.next ∧ ∀ c ∈ (h.sweep held).cells, c ∈ h.cells := by
  unfold sweep
  refine List.foldlRecOn _ release
    (motive := fun k => k.next = h.next ∧ ∀ c ∈ k.cells, c ∈ h.cells) ⟨rfl, fun _ hc => hc⟩
    fun k hk other _ => ?_
  have hrelease := k.issued_release other
  exact ⟨hrelease.1.trans hk.1, fun c hc => hk.2 c (hrelease.2 c hc)⟩

namespace Vault

variable {v v₁ v' : Vault}

def read? (v : Vault) (context handle : Nat) : Option NativeCell :=
  (v.heap? context).bind (·.read? handle)

theorem read?_of_heap? {context : Nat} {h : NativeHeap} (hh : v.heap? context = some h)
    (handle : Nat) : v.read? context handle = h.read? handle := by
  rw [read?, hh, Option.bind_some]

def Issued (v : Vault) : Prop := ∀ h ∈ v.heaps, ∀ cell ∈ h.cells, cell.1 < h.next

structure Extends (v v' : Vault) : Prop where
  live : ∀ context handle, (v.read? context handle).isSome = true →
    (v'.read? context handle).isSome = true
  issued : v.Issued → v'.Issued
  cells : v.Issued → ∀ context handle cell, v.read? context handle = some cell →
    v'.read? context handle = some cell

theorem Extends.refl (v : Vault) : Extends v v :=
  ⟨fun _ _ h => h, fun h => h, fun _ _ _ _ h => h⟩

theorem Extends.trans (h : v.Extends v₁) (h' : v₁.Extends v') : v.Extends v' where
  live context handle hl := h'.live context handle (h.live context handle hl)
  issued hv := h'.issued (h.issued hv)
  cells hv context handle cell hc :=
    h'.cells (h.issued hv) context handle cell (h.cells hv context handle cell hc)

theorem read?_set {context : Nat} {h h' : NativeHeap} (hh : v.heap? context = some h)
    (k handle : Nat) : (Vault.mk (v.heaps.set context h')).read? k handle =
      if k = context then h'.read? handle else v.read? k handle := by
  obtain ⟨hlt, -⟩ := List.getElem?_eq_some_iff.mp hh
  unfold read? heap?
  dsimp only
  split
  · next hk => rw [hk, List.getElem?_set_self hlt, Option.bind_some]
  · next hk => rw [List.getElem?_set_ne (Ne.symm hk)]

/-- A new cell is put under a handle that has not been handed out before. -/
theorem extends_alloc {context : Nat} {h : NativeHeap} (hh : v.heap? context = some h)
    (cell : NativeCell) : v.Extends ⟨v.heaps.set context (h.alloc cell).2⟩ := by
  have hread := read?_of_heap? hh
  refine ⟨fun k handle hl => ?_, fun hv h' hh' c hc => ?_, fun hv k handle c hc => ?_⟩
  · rw [read?_set hh]
    split
    · next hk =>
      rw [hk, hread] at hl
      rw [h.read?_alloc]
      split
      · rfl
      · exact hl
    · exact hl
  · rcases List.mem_or_eq_of_mem_set hh' with hh' | rfl
    · exact hv h' hh' c hc
    · rcases List.mem_cons.mp hc with rfl | hc
      · exact Nat.lt_succ_self _
      · exact Nat.lt_succ_of_lt (hv h (List.mem_of_getElem? hh) c hc)
  · rw [read?_set hh]
    split
    · next hk =>
      rw [hk, hread] at hc
      rw [h.read?_alloc, if_neg]
      · exact hc
      · rintro rfl
        obtain ⟨e, he, -⟩ := Option.map_eq_some_iff.mp hc
        have hlt := hv h (List.mem_of_getElem? hh) e (List.mem_of_find?_eq_some he)
        have hhandle : e.1 = h.next := by simpa using List.find?_some he
        omega
    · exact hc

/-- What becomes of a vault in the course of the program, as long as some cells are held: contexts
are derived, cells are added, and other cells are released. -/
inductive Keeps (held : List (Nat × Nat)) (v : Vault) : Vault → Prop where
  | refl : Keeps held v v
  | derive {v₁ : Vault} (h : Keeps held v v₁) : Keeps held v ⟨v₁.heaps ++ [.empty]⟩
  | alloc {v₁ : Vault} {context : Nat} {heap : NativeHeap} (h : Keeps held v v₁)
      (hheap : v₁.heap? context = some heap) (cell : NativeCell) :
      Keeps held v ⟨v₁.heaps.set context (heap.alloc cell).2⟩
  | sweep {v₁ : Vault} {others : List (Nat × Nat)} (h : Keeps held v v₁)
      (hothers : ∀ c ∈ held, c ∈ others) : Keeps held v (v₁.sweep others)

/-- Vaults that come out of the program. -/
def Reachable (v : Vault) : Prop := Vault.empty.Keeps [] v

variable {held : List (Nat × Nat)}

theorem Keeps.issued (h : v.Keeps held v') (hv : v.Issued) : v'.Issued := by
  induction h with
  | refl => exact hv
  | derive _ ih =>
    intro heap hheap c hc
    rcases List.mem_append.mp hheap with hheap | hheap
    · exact ih heap hheap c hc
    · cases List.mem_singleton.mp hheap
      cases hc
  | alloc _ hheap cell ih => exact (extends_alloc hheap cell).issued ih
  | @sweep v₁ others _ _ ih =>
    intro heap hheap c hc
    obtain ⟨context, hlt, rfl⟩ := List.mem_mapIdx.mp hheap
    have hswept := NativeHeap.issued_sweep v₁.heaps[context]
      ((others.filter (·.1 = context)).map (·.2))
    rw [hswept.1]
    exact ih _ (List.getElem_mem hlt) c (hswept.2 c hc)

theorem Reachable.issued (h : v.Reachable) : v.Issued := Keeps.issued h fun _ hh => nomatch hh

theorem Keeps.read? (h : v.Keeps held v') (hv : v.Issued) {context handle : Nat}
    (hheld : (context, handle) ∈ held) {cell : NativeCell}
    (hcell : v.read? context handle = some cell) : v'.read? context handle = some cell := by
  induction h with
  | refl => exact hcell
  | @derive v₁ _ ih =>
    obtain ⟨heap, hheap, hread⟩ := Option.bind_eq_some_iff.mp ih
    have hlt := (List.getElem?_eq_some_iff.mp hheap).1
    rw [Vault.read?, heap?, List.getElem?_append_left hlt]
    exact ih
  | alloc h hheap cell ih => exact (extends_alloc hheap cell).cells (h.issued hv) _ _ _ ih
  | @sweep v₁ others _ hothers ih =>
    obtain ⟨heap, hheap, hread⟩ := Option.bind_eq_some_iff.mp ih
    have hkept : handle ∈ (others.filter (·.1 = context)).map (·.2) :=
      List.mem_map.mpr ⟨(context, handle), List.mem_filter.mpr ⟨hothers _ hheld, by simp⟩, rfl⟩
    have hheap : v₁.heaps[context]? = some heap := hheap
    rw [Vault.read?, heap?, Vault.sweep, List.getElem?_mapIdx, hheap, Option.map_some,
      Option.bind_some, heap.read?_sweep hkept]
    exact hread

end Vault

section Computations

variable {ε α β : Type}

/-- A computation that only adds cells. -/
def Grows (m : ExceptT ε (StateM Vault) α) : Prop := ∀ v r v', Runs m v r v' → v.Extends v'

theorem grows_pure (a : α) : Grows (pure a : ExceptT ε (StateM Vault) α) := by
  intro v r v' h
  rw [(runs_pure.mp h).2]
  exact .refl v

theorem grows_throw (e : ε) : Grows (throw e : ExceptT ε (StateM Vault) α) := by
  intro v r v' h
  rw [(runs_throw.mp h).2]
  exact .refl v

theorem grows_liftM (x : Except ε α) : Grows (liftM x : ExceptT ε (StateM Vault) α) := by
  intro v r v' h
  rw [(runs_liftM.mp h).2]
  exact .refl v

theorem Grows.bind {m : ExceptT ε (StateM Vault) α} {f : α → ExceptT ε (StateM Vault) β}
    (hm : Grows m) (hf : ∀ a, Grows (f a)) : Grows (m >>= f) := by
  intro v r v' h
  rcases runs_bind h with ⟨e, h, -⟩ | ⟨a, v₁, ha, h⟩
  · exact hm v _ v' h
  · exact (hm v _ v₁ ha).trans (hf a v₁ r v' h)

theorem Grows.atNode {n : Native α} (h : Grows n) (node : NodeId) : Grows (n.atNode node) := by
  intro v r v' hr
  obtain ⟨x, hx, -⟩ := runs_atNode.mp hr
  exact h v x v' hx

theorem Grows.alone {n : Native α} (h : Grows n) : Grows n.alone := by
  intro v r v' hr
  obtain ⟨x, hx, -⟩ := runs_alone.mp hr
  exact h v x v' hx

theorem grows_ofEval (node : NodeId) (x : Except EvalError α) : Grows (Exec.ofEval node x) := by
  cases x with
  | ok a => exact grows_pure a
  | error e => exact grows_throw _

theorem grows_ofGraph (x : Except GraphError α) : Grows (Exec.ofGraph x) := by
  cases x with
  | ok a => exact grows_pure a
  | error e => exact grows_throw _

theorem runs_alloc {context handle : Nat} {cell : NativeCell} {v v' : Vault}
    (h : Runs (Native.alloc context cell) v (.ok handle) v') :
    v'.read? context handle = some cell := by
  unfold Native.alloc at h
  rw [runs_get_bind] at h
  split at h
  · cases (runs_throw.mp h).1
  · next heap hheap =>
    rw [runs_set_bind] at h
    obtain ⟨hr, rfl⟩ := runs_pure.mp h
    cases hr
    rw [Vault.read?_set hheap, if_pos rfl, heap.read?_alloc]
    exact if_pos rfl

theorem grows_alloc (context : Nat) (cell : NativeCell) : Grows (Native.alloc context cell) := by
  intro v r v' h
  unfold Native.alloc at h
  rw [runs_get_bind] at h
  split at h
  · exact grows_throw _ v r v' h
  · next heap hheap =>
    rw [runs_set_bind] at h
    rw [(runs_pure.mp h).2]
    exact Vault.extends_alloc hheap cell

end Computations

/-- The computation only adds cells, and a ciphertext that it gives is live. -/
def Scheme.Yields (S : Scheme) (n : Native S.Ciphertext) : Prop :=
  Grows n ∧ ∀ v c v', Runs n v (.ok c) v' → S.isLive c v' = true

/-- Ciphertexts of a scheme are live from the start and for good. -/
structure Scheme.Lasting (S : Scheme) : Prop where
  live : ∀ c v v', v.Extends v' → S.isLive c v = true → S.isLive c v' = true
  encrypt : ∀ context keyId p noise, S.Yields (S.encrypt context keyId p noise)
  combine : ∀ op ev a b, S.Yields (S.combine op ev a b)
  combinePlain : ∀ op ev a b, S.Yields (S.combinePlain op ev a b)
  combineLeft : ∀ op ev a b, S.Yields (S.combineLeft op ev a b)
  negate : ∀ ev c, S.Yields (S.negate ev c)
  rotate : ∀ ev c step, S.Yields (S.rotate ev c step)

theorem lasting_bfv : Scheme.bfv.Lasting where
  live _ _ _ _ _ := rfl
  encrypt _ _ _ _ := ⟨grows_pure _, fun _ _ _ _ => rfl⟩
  combine _ _ _ _ := ⟨grows_liftM _, fun _ _ _ _ => rfl⟩
  combinePlain _ _ _ _ := ⟨grows_liftM _, fun _ _ _ _ => rfl⟩
  combineLeft _ _ _ _ := ⟨grows_liftM _, fun _ _ _ _ => rfl⟩
  negate _ _ := ⟨grows_pure _, fun _ _ _ _ => rfl⟩
  rotate _ _ _ := ⟨grows_liftM _, fun _ _ _ _ => rfl⟩

theorem lasting_ckks : Scheme.ckks.Lasting where
  live _ _ _ _ _ := rfl
  encrypt _ _ _ _ := ⟨grows_liftM _, fun _ _ _ _ => rfl⟩
  combine _ _ _ _ := ⟨grows_liftM _, fun _ _ _ _ => rfl⟩
  combinePlain _ _ _ _ := ⟨grows_liftM _, fun _ _ _ _ => rfl⟩
  combineLeft _ _ _ _ := ⟨grows_liftM _, fun _ _ _ _ => rfl⟩
  negate _ _ := ⟨grows_pure _, fun _ _ _ _ => rfl⟩
  rotate _ _ _ := ⟨grows_liftM _, fun _ _ _ _ => rfl⟩

namespace Gates

variable {v v' : Vault} {ev : Evaluator} {c d : Ciphertext}

def cell? (c : Ciphertext) (v : Vault) : Option NativeCell := v.read? c.context c.handle

theorem runs_value_ok {x : UInt8} : Runs (value c) v (.ok x) v' ↔
    (∃ cell, cell? c v = some cell ∧ cell.value = x) ∧ v' = v := by
  unfold value Native.read
  rw [runs_bind_ok]
  constructor
  · rintro ⟨cell, _, h, hrest⟩
    obtain ⟨hx, rfl⟩ := runs_pure.mp hrest
    cases hx
    rw [runs_get_bind] at h
    split at h
    · next found hfound =>
      obtain ⟨hr, rfl⟩ := runs_pure.mp h
      cases hr
      exact ⟨⟨_, hfound, rfl⟩, rfl⟩
    · cases (runs_throw.mp h).1
  · rintro ⟨⟨cell, hcell, rfl⟩, rfl⟩
    refine ⟨cell, v', ?_, runs_pure.mpr ⟨rfl, rfl⟩⟩
    rw [runs_get_bind]
    unfold cell? Vault.read? at hcell
    simp only [hcell]
    exact runs_pure.mpr ⟨rfl, rfl⟩

theorem grows_value (c : Ciphertext) : Grows (value c) := by
  intro v r v' h
  cases r with
  | ok x =>
    rw [(runs_value_ok.mp h).2]
    exact .refl v
  | error e =>
    unfold value Native.read at h
    rcases runs_bind_error.mp h with h | ⟨_, _, -, h⟩
    · rw [runs_get_bind] at h
      split at h
      · cases (runs_pure.mp h).1
      · exact grows_throw _ v _ v' h
    · cases (runs_pure.mp h).1

theorem runs_alloc_ok {context : Context} {keyId : KeyId} {x : UInt8}
    (h : Runs (alloc context keyId x) v (.ok d) v') :
    d.keyId = keyId ∧ cell? d v' = some ⟨keyId, x⟩ := by
  unfold alloc at h
  split at h
  · obtain ⟨handle, v₁, h₁, hrest⟩ := runs_bind_ok.mp h
    obtain ⟨hd, rfl⟩ := runs_pure.mp hrest
    cases hd
    exact ⟨rfl, runs_alloc h₁⟩
  · cases (runs_throw.mp h).1

theorem yields_alloc (context : Context) (keyId : KeyId) (x : UInt8) :
    Scheme.bitwise.Yields (alloc context keyId x) := by
  constructor
  · unfold alloc
    split
    · exact (grows_alloc _ _).bind fun _ => grows_pure _
    · exact grows_throw _
  · intro v d v' h
    exact Option.isSome_iff_exists.mpr ⟨_, (runs_alloc_ok h).2⟩

theorem yields_bind {α : Type} {m : Native α} {f : α → Native Ciphertext} (hm : Grows m)
    (hf : ∀ a, Scheme.bitwise.Yields (f a)) : Scheme.bitwise.Yields (m >>= f) := by
  refine ⟨hm.bind fun a => (hf a).1, fun v d v' h => ?_⟩
  obtain ⟨a, v₁, -, hrest⟩ := runs_bind_ok.mp h
  exact (hf a).2 v₁ d v' hrest

theorem yields_gate (ev : Evaluator) (c : Ciphertext) (f : UInt8 → UInt8) :
    Scheme.bitwise.Yields (gate ev c f) :=
  yields_bind (grows_liftM _) fun _ => yields_bind (grows_value c) fun _ => yields_alloc _ _ _

theorem yields_combinePlain (op : Arithmetic) (ev : Evaluator) (a : Ciphertext) (b : Plaintext) :
    Scheme.bitwise.Yields (combinePlain op ev a b) := by
  unfold combinePlain
  split
  · exact yields_bind (grows_throw _) fun _ => yields_gate ev a _
  · exact yields_gate ev a _

end Gates

theorem lasting_bitwise : Scheme.bitwise.Lasting where
  live c _ _ h hl := h.live c.context c.handle hl
  encrypt _ _ _ _ := Gates.yields_alloc _ _ _
  combine _ ev a b :=
    Gates.yields_bind ((grows_liftM _).bind fun _ => Gates.grows_value b) fun _ =>
      Gates.yields_gate ev a _
  combinePlain := Gates.yields_combinePlain
  combineLeft op ev a b := by
    cases op with
    | add => exact Gates.yields_combinePlain .add ev b a
    | mul => exact Gates.yields_combinePlain .mul ev b a
    | sub => exact Gates.yields_gate ev b _
    | div => exact Gates.yields_gate ev b _
  negate ev c := Gates.yields_gate ev c _
  rotate ev c _ := Gates.yields_gate ev c _

theorem lasting (kind : SchemeKind) : (Command.schemeOf kind).Lasting := by
  cases kind with
  | ckks => exact lasting_ckks
  | bfv => exact lasting_bfv
  | bitwise => exact lasting_bitwise

def Value.Live {S : Scheme} (v : Vault) : Value S → Prop
  | .cipher c => S.isLive c v = true
  | .plain _ | .raw _ => True

namespace Machine

variable {S : Scheme} (hS : S.Lasting) {m m' : Machine S} {node : NodeId} {v v' : Vault}
  {x y z : Value S}

theorem grows_requireKeys (m : Machine S) (op : Arithmetic) : Grows (m.requireKeys node op) := by
  unfold requireKeys
  split
  · exact (grows_ofEval _ _).bind fun _ => grows_pure _
  · exact grows_pure _

theorem grows_value (m : Machine S) (id : NodeId) : Grows (m.value id) := by
  unfold value
  split
  · exact grows_pure _
  · exact grows_throw _

theorem grows_constant (m : Machine S) (c : Constant) : Grows (m.constant node c) := by
  unfold constant
  split
  · exact grows_throw _
  · exact (grows_liftM _).bind fun _ => grows_pure _

theorem live_of_constant {c : Constant} (h : Runs (m.constant node c) v (.ok x) v') :
    x.Live v' := by
  unfold constant at h
  split at h
  · cases (runs_throw.mp h).1
  · obtain ⟨_, _, -, h⟩ := runs_bind_ok.mp h
    cases (runs_pure.mp h).1
    trivial

include hS

theorem grows_arithmetic (op : Arithmetic) (y z : Value S) :
    Grows (m.arithmetic node op y z) := by
  have hkeys : Grows (m.requireKeys node op) := grows_requireKeys m op
  unfold arithmetic
  split
  · exact (grows_liftM _).bind fun _ => grows_pure _
  · exact hkeys.bind fun _ => ((hS.combine ..).1.atNode node).bind fun _ => grows_pure _
  · split
    · exact (grows_throw _).bind fun _ => hkeys.bind fun _ =>
        ((hS.combinePlain ..).1.atNode node).bind fun _ => grows_pure _
    · exact hkeys.bind fun _ => ((hS.combinePlain ..).1.atNode node).bind fun _ => grows_pure _
  · exact hkeys.bind fun _ => ((hS.combineLeft ..).1.atNode node).bind fun _ => grows_pure _
  · exact grows_throw _
  · exact grows_throw _

theorem grows_rotate (steps : Nat) (left : Bool) : Grows (m.rotate node y steps left) := by
  have hrotate (c : S.Ciphertext) (step : Int) := (hS.rotate m.evaluator c step).1.atNode node
  unfold rotate
  split
  · split
    · exact (grows_throw _).bind fun _ => (hrotate _ _).bind fun _ => grows_pure _
    · exact (hrotate _ _).bind fun _ => grows_pure _
  · exact grows_throw _
  · exact grows_pure _

theorem grows_unary (op : Operation) : Grows (m.unary node op y) := by
  unfold unary
  split
  · exact grows_pure _
  · unfold encode
    split
    · exact (grows_liftM _).bind fun _ => (grows_ofEval _ _).bind fun _ => grows_pure _
    · exact grows_throw _
  · unfold negate
    split
    · exact ((hS.negate ..).1.atNode node).bind fun _ => grows_pure _
    · exact grows_throw _
    · exact grows_pure _
  · exact grows_rotate hS _ true
  · exact grows_rotate hS _ false
  · exact grows_throw _

theorem grows_visit (m : Machine S) (node : NodeId) : Grows (m.visit node) := by
  unfold visit
  refine (grows_ofGraph _).bind fun op => ?_
  split
  · split
    · exact grows_pure _
    · exact grows_throw _
  · refine Grows.bind ?_ fun _ => grows_pure _
    unfold evaluate
    split
    · exact grows_throw _
    · exact grows_constant m _
    · exact (grows_value m _).bind fun _ => (grows_value m _).bind fun _ =>
        grows_arithmetic hS _ _ _
    · exact (grows_value m _).bind fun _ => grows_unary hS _
    · exact grows_throw _

omit hS in
theorem live_of_atNode {n : Native S.Ciphertext} (hn : S.Yields n)
    (h : Runs (do return Value.cipher (← n.atNode node)) v (.ok x) v') : x.Live v' := by
  obtain ⟨c, v₁, h₁, hrest⟩ := runs_bind_ok.mp h
  obtain ⟨hx, rfl⟩ := runs_pure.mp hrest
  cases hx
  exact hn.2 v c _ (runs_atNode_ok.mp h₁)

theorem live_of_arithmetic {op : Arithmetic} (h : Runs (m.arithmetic node op y z) v (.ok x) v') :
    x.Live v' := by
  unfold arithmetic at h
  split at h
  · obtain ⟨_, _, -, h⟩ := runs_bind_ok.mp h
    cases (runs_pure.mp h).1
    trivial
  · obtain ⟨_, _, -, h⟩ := runs_bind_ok.mp h
    exact live_of_atNode (hS.combine ..) h
  · split at h
    · obtain ⟨_, _, h, -⟩ := runs_bind_ok.mp h
      cases (runs_throw.mp h).1
    · obtain ⟨_, _, -, h⟩ := runs_bind_ok.mp h
      exact live_of_atNode (hS.combinePlain ..) h
  · obtain ⟨_, _, -, h⟩ := runs_bind_ok.mp h
    exact live_of_atNode (hS.combineLeft ..) h
  · cases (runs_throw.mp h).1
  · cases (runs_throw.mp h).1

theorem live_of_rotate {steps : Nat} {left : Bool}
    (h : Runs (m.rotate node y steps left) v (.ok x) v') : x.Live v' := by
  unfold rotate at h
  split at h
  · split at h
    · obtain ⟨_, _, h, -⟩ := runs_bind_ok.mp h
      cases (runs_throw.mp h).1
    · exact live_of_atNode (hS.rotate ..) h
  · cases (runs_throw.mp h).1
  · cases (runs_pure.mp h).1
    trivial

theorem live_of_unary {op : Operation} (hy : y.Live v)
    (h : Runs (m.unary node op y) v (.ok x) v') : x.Live v' := by
  unfold unary at h
  split at h
  · obtain ⟨hx, rfl⟩ := runs_pure.mp h
    cases hx
    exact hy
  · unfold encode at h
    split at h
    · obtain ⟨_, _, -, h⟩ := runs_bind_ok.mp h
      obtain ⟨_, _, -, h⟩ := runs_bind_ok.mp h
      cases (runs_pure.mp h).1
      trivial
    · cases (runs_throw.mp h).1
  · unfold negate at h
    split at h
    · exact live_of_atNode (hS.negate ..) h
    · cases (runs_throw.mp h).1
    · cases (runs_pure.mp h).1
      trivial
  · exact live_of_rotate hS h
  · exact live_of_rotate hS h
  · cases (runs_throw.mp h).1

def Live (m : Machine S) (v : Vault) : Prop := ∀ id x, m.values.find? id = some x → x.Live v

omit hS in
theorem Live.trims (h : m.Live v) (ht : Trims m m') : m'.Live v :=
  fun id x hx => h id x (ht.values id x hx)

omit hS in
theorem Live.put (h : m.Live v) (hx : x.Live v) : (m.put node x).Live v :=
  OrderedMap.forall_find?_insert hx h

theorem Live.extends (h : m.Live v) (hv : v.Extends v') : m.Live v' := by
  intro id x hx
  have hl := h id x hx
  cases x with
  | cipher c => exact hS.live c v v' hv hl
  | plain | raw => trivial

theorem Live.visit (h : m.Live v) (hg : m.graph.Sound)
    (hvisit : Runs (m.visit node) v (.ok m') v') : m'.Live v' := by
  have hlater := h.extends hS (grows_visit hS m node v _ v' hvisit)
  rcases visit_ok hvisit with ⟨rfl, -⟩ | ⟨op, x, hop, hinput, heval, rfl⟩
  · exact hlater
  · refine hlater.put ?_
    have harity := hg.arity _ ((Graph.op?_eq_ok hg.ascending).mp hop)
    rcases evaluate_ok harity hinput heval with ⟨c, -, hc⟩ | ⟨_, _, _, y, z, -, -, -, -, ha⟩ |
      ⟨operand, y, -, hy, hu⟩
    · exact live_of_constant hc
    · exact live_of_arithmetic hS ha
    · exact live_of_unary hS (h operand y hy) hu

theorem Passes.extends {left left' : Remaining} {order : List NodeId}
    (h : Passes m left v order m' left' v') : v.Extends v' := by
  induction h with
  | nil => exact .refl _
  | cons hvisit _ ih => exact (grows_visit hS _ _ _ _ _ hvisit).trans ih

theorem Live.passes {left left' : Remaining} {order : List NodeId} (hm : m.Live v)
    (hg : m.graph.Sound) (h : Passes m left v order m' left' v') : m'.Live v' := by
  induction h with
  | nil => exact hm
  | cons hvisit _ ih =>
    refine ih ((hm.visit hS hg hvisit).trims (trims_freeOperands ..)) ?_
    rw [(trims_freeOperands ..).graph, (visit_frame hvisit).1]
    exact hg

end Machine

open Machine

variable {S : Scheme} {keys : Public S.kind} {g : Graph} {inputs : SchemeValuation S}
  {m : Machine S} {v v' : Vault}

def SchemeValuation.Live (inputs : SchemeValuation S) (v : Vault) : Prop :=
  ∀ name x, (name, x) ∈ inputs.entries → x.Live v

theorem Starts.live (h : Starts keys g inputs m) (hinputs : inputs.Live v) : m.Live v :=
  bindAll_induct (P := (Machine.Live · v)) h.bound (by simp [Machine.Live])
    fun _ _ name x hx hm _ _ => hm.put (hinputs name x hx)

theorem grows_encryptInput (hS : S.Lasting) (context : Context) (keyId : KeyId) (sig : Signature)
    (name : String) (p : PlainValue) (noise : Noise) :
    Grows (encryptInput S context keyId sig name p noise) := by
  unfold encryptInput
  split
  · exact grows_throw _
  · refine (grows_liftM _).bind fun slots => ?_
    split
    · exact (grows_liftM _).bind fun _ => grows_pure _
    · refine (grows_liftM _).bind fun full => ?_
      split
      · exact grows_throw _
      · split
        · exact grows_pure _
        · exact (hS.encrypt ..).1.alone.bind fun _ => grows_pure _

theorem collect_not_released {out found : SchemeValuation S} {l : List (String × NodeId)}
    {e : ExecError} (hm : m.Live v) (h : m.collect v l found = (out, .error e)) :
    ∃ name id, (name, id) ∈ l ∧ m.values.find? id = none := by
  induction l generalizing found with
  | nil => cases h
  | cons entry l ih =>
    obtain ⟨name, id⟩ := entry
    have hrest {found} (h : m.collect v l found = (out, .error e)) :
        ∃ name' id', (name', id') ∈ (name, id) :: l ∧ m.values.find? id' = none := by
      obtain ⟨name', id', hmem, hnone⟩ := ih h
      exact ⟨name', id', List.mem_cons_of_mem _ hmem, hnone⟩
    unfold Machine.collect at h
    split at h
    · next hnone => exact ⟨name, id, List.mem_cons_self, hnone⟩
    · next c hc =>
      rw [if_pos (show S.isLive c v = true from hm id _ hc)] at h
      exact hrest h
    · exact hrest h

end CipherGraph

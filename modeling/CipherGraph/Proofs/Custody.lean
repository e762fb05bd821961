import CipherGraph.Proofs.Ownership
import CipherGraph.Proofs.PromptRelease
import CipherGraph.Proofs.TypeSafety

/-! # Custody of native cells

Callers hold valuations, whose ciphertexts refer to cells of native heaps. Calls add cells, copies
share them, and a cell that nobody holds any more is released. In every course of calls the heaps
hold what the callers hold and nothing else, and what is gone has been released once. This is what
counting the handles of each cell comes to.
-/

namespace CipherGraph

open Vault (Alike handlesOf)

structure Custody where
  vault : Vault
  held : List (SchemeValuation Scheme.bitwise)

namespace Custody

variable {s s' : Custody} {K : Set (Nat × Nat)} {v v' w : Vault}
  {x other : SchemeValuation Scheme.bitwise} {held rest : List (SchemeValuation Scheme.bitwise)}

/-- The cells that callers refer to, as often as they do. -/
def cells (s : Custody) : List (Nat × Nat) := s.held.flatMap SchemeValuation.cells

/-- Callers hold these valuations, and what they do not hold is released. -/
def settle (v : Vault) (held : List (SchemeValuation Scheme.bitwise)) : Custody :=
  ⟨v.sweep (held.flatMap SchemeValuation.cells), held⟩

/-- Calls on what is held, with the valuation they give, if any, or their failure. -/
inductive Call (s : Custody) :
    Except BlobError (Option (SchemeValuation Scheme.bitwise)) → Vault → Prop where
  | encrypt {context : Context} {keyId : KeyId} {values : Valuation} {sig : Signature}
      {noise : String → Noise} {r : Except ExecError (SchemeValuation Scheme.bitwise)} {v' : Vault}
      (h : Runs (encrypt Scheme.bitwise context keyId values sig noise) s.vault r v') :
      Call s ((r.map some).mapError .exec) v'
  | decode {context : Context} {blob : Bytes} {expected : ExpectedClasses}
      {r : Except BlobError (SchemeValuation Scheme.bitwise)} {v' : Vault}
      (h : Runs (unwrapValues Scheme.bitwise context blob expected) s.vault r v') :
      Call s (r.map some) v'
  | execute {keys : Public Scheme.bitwise.kind} {g : Graph}
      {inputs : SchemeValuation Scheme.bitwise}
      {r : Except ExecError (SchemeValuation Scheme.bitwise)} {v' : Vault} (hin : inputs ∈ s.held)
      (h : Runs (execute Scheme.bitwise keys g inputs) s.vault r v') :
      Call s ((r.map some).mapError .exec) v'
  | decrypt {secret : Secret Scheme.bitwise.kind} {x : SchemeValuation Scheme.bitwise}
      {sig : Signature} {r : Except ExecError Valuation} {v' : Vault} (hx : x ∈ s.held)
      (h : Runs (decrypt Scheme.bitwise secret x sig) s.vault r v') :
      Call s ((r.map fun _ => none).mapError .exec) v'
  | write {x : SchemeValuation Scheme.bitwise} {r : Except BlobError Envelope} {v' : Vault}
      (hx : x ∈ s.held) (h : Runs (wrapValues Scheme.bitwise x) s.vault r v') :
      Call s (r.map fun _ => none) v'

def gained : Except BlobError (Option (SchemeValuation Scheme.bitwise)) →
    List (SchemeValuation Scheme.bitwise)
  | .ok x? => x?.toList
  | .error _ => []

/-- Contexts are derived, calls are made, and valuations are copied in whole or in part, merged and
dropped. A merge takes over its second valuation, also if it fails. -/
inductive Step (s : Custody) : Custody → Prop where
  | derive {p : Parameters} {r : Except ExecError Context} {v' : Vault}
      (h : Runs (Exec.derive p) s.vault r v') : Step s (settle v' s.held)
  | call {r : Except BlobError (Option (SchemeValuation Scheme.bitwise))} {v' : Vault}
      (h : s.Call r v') : Step s (settle v' (gained r ++ s.held))
  | copy {x : SchemeValuation Scheme.bitwise} (hx : x ∈ s.held) :
      Step s (settle s.vault (x :: s.held))
  | subset {x : SchemeValuation Scheme.bitwise} (hx : x ∈ s.held) (names : List String) :
      Step s (settle s.vault (x.subset names :: s.held))
  | merge {x other : SchemeValuation Scheme.bitwise} {rest : List (SchemeValuation Scheme.bitwise)}
      (h : s.held.Perm (x :: other :: rest)) (policy : MergePolicy) :
      Step s (settle s.vault ((x.merge other policy).toOption.getD x :: rest))
  | drop {x : SchemeValuation Scheme.bitwise} {rest : List (SchemeValuation Scheme.bitwise)}
      (h : s.held.Perm (x :: rest)) : Step s (settle s.vault rest)

/-- Each reference to a cell is a handle of it. -/
def ownership (s : Custody) : Ownership := ⟨s.vault, s.vault, s.cells⟩

inductive Reachable : Custody → Prop where
  | empty : Reachable ⟨.empty, []⟩
  | step {s s' : Custody} (h : Reachable s) (hs : s.Step s') : Reachable s'

theorem mem_cells {c : Nat × Nat} : c ∈ s.cells ↔ ∃ x ∈ s.held, c ∈ x.cells := List.mem_flatMap

theorem all_within (hK : ∀ c ∈ s.cells, c ∈ K) : ∀ x ∈ s.held, ∀ c ∈ x.cells, c ∈ K :=
  fun x hx c hc => hK c (mem_cells.mpr ⟨x, hx, hc⟩)

theorem within (h : x ∈ s.held) : ∀ c ∈ x.cells, c ∈ {c | c ∈ s.cells} :=
  all_within (fun _ hc => hc) x h

theorem mem_foldl_insert {κ α : Type} [DecidableEq κ] {l : List (κ × α)} {m : OrderedMap κ α}
    {e : κ × α} (h : e ∈ (l.foldl (fun m (k, a) => m.insert k a) m).entries) :
    e ∈ m.entries ∨ e ∈ l := by
  induction l generalizing m with
  | nil => exact .inl h
  | cons d l ih =>
    rcases ih h with hd | hl
    · rcases OrderedMap.mem_entries_insert hd with rfl | hm
      · exact .inr List.mem_cons_self
      · exact .inl hm
    · exact .inr (List.mem_cons_of_mem _ hl)

theorem cells_subset {c : Nat × Nat} {names : List String} (h : c ∈ (x.subset names).cells) :
    c ∈ x.cells := by
  obtain ⟨name, d, hd, rfl⟩ := SchemeValuation.mem_cells.mp h
  rcases mem_foldl_insert hd with hnone | hd
  · cases hnone
  · obtain ⟨n, -, hn⟩ := List.mem_filterMap.mp hd
    obtain ⟨y, hy, heq⟩ := Option.map_eq_some_iff.mp hn
    cases heq
    exact SchemeValuation.mem_cells.mpr ⟨_, d, OrderedMap.mem_of_lookup hy, rfl⟩

theorem cells_merge {c : Nat × Nat} {policy : MergePolicy}
    (h : c ∈ ((x.merge other policy).toOption.getD x).cells) : c ∈ x.cells ∨ c ∈ other.cells := by
  cases hmerge : x.merge other policy with
  | error e =>
    rw [hmerge] at h
    exact .inl h
  | ok merged =>
    rw [hmerge] at h
    have hunion : merged = x.union other := by
      unfold SchemeValuation.merge at hmerge
      split at hmerge <;> cases hmerge
      rfl
    obtain ⟨name, d, hd, rfl⟩ := SchemeValuation.mem_cells.mp h
    rw [hunion] at hd
    rcases mem_foldl_insert hd with hd | hd
    · exact .inl (SchemeValuation.mem_cells.mpr ⟨name, d, hd, rfl⟩)
    · exact .inr (SchemeValuation.mem_cells.mpr ⟨name, d, hd, rfl⟩)

/-- The heaps are balanced, and hold the cells that callers hold and no others. -/
structure Settled (s : Custody) : Prop where
  alike : Alike {c | c ∈ s.cells} s.vault s.vault
  held : ∀ context handle, (s.vault.read? context handle).isSome = true →
    (context, handle) ∈ s.cells

theorem settled_settle (h : Alike K v v) (hheld : ∀ x ∈ held, ∀ c ∈ x.cells, c ∈ K) :
    (settle v held).Settled := by
  have hcells : ∀ c ∈ (settle v held).cells, c ∈ K := by
    intro c hc
    obtain ⟨x, hx, hc⟩ := mem_cells.mp hc
    exact hheld x hx c hc
  refine ⟨(h.sweep (L := {c | c ∈ (settle v held).cells}) hcells fun c hc => hc).right_self, ?_⟩
  intro context handle hread
  rw [settle, h.left.read?_sweep] at hread
  split at hread
  · next hmem => exact hmem
  · cases hread

/-- How a call ends that does not touch what others hold. -/
structure Kept (s : Custody) (r : Except BlobError (Option (SchemeValuation Scheme.bitwise)))
    (v' : Vault) : Prop where
  adds : s.vault.Adds v'
  spares : Spares BlobError.isReleased r
  alike : ∃ K, Alike K v' v' ∧ ∀ x ∈ gained r ++ s.held, ∀ c ∈ x.cells, c ∈ K

theorem Kept.settled {r : Except BlobError (Option (SchemeValuation Scheme.bitwise))}
    (h : s.Kept r v') : (settle v' (gained r ++ s.held)).Settled := by
  obtain ⟨K, hK, hcells⟩ := h.alike
  exact settled_settle hK hcells

section Kept

variable {ε α : Type} {bad : ε → Bool} {m : ExceptT ε (StateM Vault) α}
  {Q : α → Set (Nat × Nat) → Prop} {r : Except ε α}

theorem Settled.kept (h : s.Settled) (hm : Local bad {c | c ∈ s.cells} m Q)
    (hrun : Runs m s.vault r v') {report : ε → BlobError}
    {give : α → Option (SchemeValuation Scheme.bitwise)}
    (hbad : ∀ e, bad e = false → (report e).isReleased = false)
    (hgive : ∀ a K, Q a K → ∀ x ∈ (give a).toList, ∀ c ∈ x.cells, c ∈ K) :
    s.Kept ((r.map give).mapError report) v' := by
  obtain ⟨r₁, K, v₁, w₁, hK, hv, -, hvw, hadds, hspares, hQ⟩ := hm _ _ h.alike
  obtain ⟨rfl, rfl⟩ := hv.unique hrun
  have hself : Alike K v₁ v₁ := hvw.left_self
  have hheld := all_within fun _ hc => hK hc
  cases r₁ with
  | error e => exact ⟨hadds, spares_error (hbad e (hspares e rfl)), K, hself, hheld⟩
  | ok a =>
    refine ⟨hadds, spares_ok _, K, hself, fun x hx => ?_⟩
    rcases List.mem_append.mp hx with hx | hx
    · exact hgive a K (hQ a rfl) x hx
    · exact hheld x hx

end Kept

theorem mapError_id {ε α : Type} (r : Except ε α) : r.mapError id = r := by cases r <;> rfl

theorem given_held {K : Set (Nat × Nat)} (h : ∀ c ∈ x.cells, c ∈ K) :
    ∀ y ∈ (some x).toList, ∀ c ∈ y.cells, c ∈ K := by
  intro y hy
  cases List.mem_singleton.mp hy
  exact h

theorem Settled.execute (h : s.Settled) (hx : x ∈ s.held) (keys : Public Scheme.bitwise.kind)
    (g : Graph) : ∃ r v' w', Runs (execute Scheme.bitwise keys g x) s.vault r v' ∧
      Runs (executeReleasing s.cells keys g x) s.vault r w' ∧
      Machine.Closes s.cells r s.vault v' w' :=
  execute_releasing h.alike (within hx) fun _ hc => hc

theorem Call.kept {r : Except BlobError (Option (SchemeValuation Scheme.bitwise))}
    (hcall : s.Call r v') (h : s.Settled) : s.Kept r v' := by
  cases hcall with
  | encrypt hrun =>
    exact h.kept (local_encrypt _ _ _ _ _) hrun (fun e he => he) fun _ _ => given_held
  | decode hrun =>
    rw [← mapError_id (Except.map _ _)]
    exact h.kept (local_unwrapValues _ _ _) hrun (fun e he => he) fun _ _ => given_held
  | @execute keys g inputs r _ hin hrun =>
    obtain ⟨r₁, v₁, w₁, hv, -, hclose⟩ := h.execute hin keys g
    obtain ⟨rfl, rfl⟩ := hv.unique hrun
    obtain ⟨K, hvw, hothers, hout⟩ := hclose.alike
    have hheld := all_within hothers
    cases r₁ with
    | error e =>
      exact ⟨hclose.adds, spares_error (hclose.spares e rfl), K, hvw.left_self, hheld⟩
    | ok out =>
      exact ⟨hclose.adds, spares_ok _, K, hvw.left_self,
        List.forall_mem_cons.mpr ⟨hout out rfl, hheld⟩⟩
  | decrypt hx hrun => exact h.kept (local_decrypt _ _ (within hx)) hrun (fun e he => he) nofun
  | write hx hrun =>
    rw [← mapError_id (Except.map _ _)]
    exact h.kept (local_wrapValues (within hx)) hrun (fun e he => he) nofun

/-- Before anything is released, a step has at most added cells and contexts to the vault, which
holds what is held after it. -/
structure Leaves (s s' : Custody) (v' : Vault) : Prop where
  ends : s' = settle v' s'.held
  grown : ∃ handles, Ownership.Course s.ownership ⟨v', v', handles⟩
  alike : ∃ K, Alike K v' v' ∧ ∀ x ∈ s'.held, ∀ c ∈ x.cells, c ∈ K

theorem Leaves.of_held (h : s.Settled) (hheld : ∀ x ∈ held, ∀ c ∈ x.cells, c ∈ s.cells) :
    s.Leaves (settle s.vault held) s.vault :=
  ⟨rfl, ⟨_, .refl⟩, {c | c ∈ s.cells}, h.alike, hheld⟩

theorem Leaves.settled (h : s.Leaves s' v') : s'.Settled := by
  obtain ⟨K, hK, hheld⟩ := h.alike
  exact h.ends ▸ settled_settle hK hheld

theorem Call.leaves {r : Except BlobError (Option (SchemeValuation Scheme.bitwise))}
    (hcall : s.Call r v') (h : s.Settled) : s.Leaves (settle v' (gained r ++ s.held)) v' :=
  ⟨rfl, Ownership.course_of_adds (hcall.kept h).adds _, (hcall.kept h).alike⟩

theorem Step.leaves (hs : s.Step s') (h : s.Settled) : ∃ v', s.Leaves s' v' := by
  have hall : ∀ x ∈ s.held, ∀ c ∈ x.cells, c ∈ s.cells := fun _ hx => within hx
  cases hs with
  | @derive p r v' hrun =>
    unfold Exec.derive at hrun
    split at hrun
    · exact ⟨s.vault, (runs_throw.mp hrun).2 ▸ .of_held h hall⟩
    · rw [runs_get_bind, runs_set_bind] at hrun
      obtain ⟨-, rfl⟩ := runs_pure.mp hrun
      exact ⟨_, rfl, ⟨_, .single .derive⟩, _, h.alike.derive, hall⟩
  | call hcall => exact ⟨_, hcall.leaves h⟩
  | copy hx => exact ⟨_, .of_held h (List.forall_mem_cons.mpr ⟨within hx, hall⟩)⟩
  | subset hx names =>
    refine ⟨_, .of_held h (List.forall_mem_cons.mpr ⟨fun c hc => ?_, hall⟩)⟩
    exact within hx c (cells_subset hc)
  | @merge x other rest hperm policy =>
    have hparts := fun y hy => hall y (hperm.mem_iff.mpr hy)
    obtain ⟨hx, hrest⟩ := List.forall_mem_cons.mp hparts
    obtain ⟨hother, hrest⟩ := List.forall_mem_cons.mp hrest
    refine ⟨_, .of_held h (List.forall_mem_cons.mpr ⟨fun c hc => ?_, hrest⟩)⟩
    exact (cells_merge hc).elim (hx c) (hother c)
  | @drop x rest hperm =>
    exact ⟨_, .of_held h fun y hy => hall y (hperm.mem_iff.mpr (List.mem_cons_of_mem _ hy))⟩

/-- Owners who copy and drop handles until they have those of what is held leave the vault that a
sweep leaves. -/
theorem Leaves.course_iff (h : s.Leaves s' v') (hs : s.Settled) :
    Ownership.Course s.ownership ⟨v', w, s'.cells⟩ ↔ w = s'.vault := by
  obtain ⟨handles, hgrown⟩ := h.grown
  obtain ⟨K, hK, hheld⟩ := h.alike
  have hvault : s'.vault = v'.sweep s'.cells := congrArg vault h.ends
  rw [hvault]
  refine Ownership.course_iff ⟨hs.alike, hs.held⟩ hgrown fun c hc => ?_
  obtain ⟨x, hx, hc⟩ := mem_cells.mp hc
  obtain ⟨cell, hcell, -⟩ := hK.cells c.1 c.2 (hheld x hx c hc)
  rw [hcell]
  rfl

theorem Reachable.settled (h : s.Reachable) : s.Settled := by
  induction h with
  | empty =>
    refine ⟨⟨nofun, nofun, rfl, nofun⟩, fun context handle hread => ?_⟩
    simp [Vault.read?, Vault.heap?, Vault.empty] at hread
  | step _ hs ih =>
    obtain ⟨_, hleaves⟩ := hs.leaves ih
    exact hleaves.settled

theorem Settled.live (h : s.Settled) {context : Nat} {heap : NativeHeap}
    (hheap : s.vault.heap? context = some heap) :
    heap.live = (handlesOf s.cells context).dedup.length := by
  have hbalanced := h.alike.left.heap? hheap
  have hread := Vault.read?_of_heap? hheap
  have hperm : heap.handles.Perm (handlesOf s.cells context).dedup := by
    refine (List.perm_ext_iff_of_nodup hbalanced.nodup (List.nodup_dedup _)).mpr fun handle => ?_
    rw [List.mem_dedup, Vault.mem_handlesOf, hbalanced.mem_handles]
    constructor
    · rintro ⟨cell, hcell⟩
      exact h.held context handle (by rw [hread, hcell]; rfl)
    · intro hmem
      obtain ⟨cell, hcell, -⟩ := h.alike.cells context handle hmem
      exact ⟨cell, hread handle ▸ hcell⟩
  rw [← hperm.length_eq, NativeHeap.handles, List.length_map, NativeHeap.live]

theorem settle_of_closes {r : Except ExecError (SchemeValuation Scheme.bitwise)}
    (h : Machine.Closes s.cells r v v' w) :
    settle w (r.toOption.toList ++ s.held) = settle v' (r.toOption.toList ++ s.held) := by
  obtain ⟨K, hvw, hothers, hout⟩ := h.alike
  refine congrArg (Custody.mk · _) (hvw.sweep_eq fun c hc => ?_).symm
  obtain ⟨y, hy, hcell⟩ := List.mem_flatMap.mp hc
  rcases List.mem_append.mp hy with hy | hy
  · cases r with
    | error e => cases hy
    | ok out => exact hout out rfl c (List.mem_singleton.mp hy ▸ hcell)
  · exact all_within hothers y hy c hcell

theorem Kept.live_of_error {e : BlobError} (h : s.Kept (.error e) v') (hs : s.Settled)
    {context : Nat} {heap : NativeHeap} (hheap : s.vault.heap? context = some heap) :
    ∃ heap', (settle v' s.held).vault.heap? context = some heap' ∧ heap'.live = heap.live := by
  have hafter : (settle v' s.held).Settled := h.settled
  have hlt : context < v'.heaps.length := h.adds.length ▸ (List.getElem?_eq_some_iff.mp hheap).1
  have hheap' := Vault.heap?_sweep v' s.cells context
  rw [show v'.heap? context = some v'.heaps[context] from List.getElem?_eq_getElem hlt] at hheap'
  exact ⟨_, hheap', (hafter.live hheap').trans (hs.live hheap).symm⟩

/-- In every course of calls, a heap has as many live cells as callers hold different ones of it,
and has released each other cell once. What is held can be read, so no call fails because a cell is
gone, and a call that fails leaves as many live cells as there were. It makes no difference to the
result of an execution, nor to what it leaves in the end, whether it releases cells as soon as they
are freed. Calls and other steps leave what is left when handles are copied and dropped one at a
time, in any order, and the drop of a cell's last handle releases it. -/
theorem Reachable.released_once (h : s.Reachable) :
    (∀ context heap, s.vault.heap? context = some heap →
      heap.live = (handlesOf s.cells context).dedup.length ∧
        heap.releases + heap.live = heap.next ∧ heap.doubleReleases = 0) ∧
    (∀ x ∈ s.held, ∀ name c, (name, .cipher c) ∈ x.entries →
      ∃ value, Runs (Gates.value c) s.vault (.ok value) s.vault) ∧
    (∀ e v', s.Call (.error e) v' → e.isReleased = false ∧
      ∀ context heap, s.vault.heap? context = some heap → ∃ heap',
        (settle v' s.held).vault.heap? context = some heap' ∧ heap'.live = heap.live) ∧
    (∀ x ∈ s.held, ∀ keys g, ∃ r v' w', Runs (execute Scheme.bitwise keys g x) s.vault r v' ∧
      Runs (executeReleasing s.cells keys g x) s.vault r w' ∧
      settle w' (r.toOption.toList ++ s.held) = settle v' (r.toOption.toList ++ s.held)) ∧
    (∀ r v', s.Call r v' → ∀ w,
      Ownership.Course s.ownership ⟨v', w, (settle v' (gained r ++ s.held)).cells⟩ ↔
        w = (settle v' (gained r ++ s.held)).vault) ∧
    ∀ s', s.Step s' → ∃ v', s' = settle v' s'.held ∧
      ∀ w, Ownership.Course s.ownership ⟨v', w, s'.cells⟩ ↔ w = s'.vault := by
  have hsettled := h.settled
  refine ⟨fun context heap hheap => ?_, fun x hx name c hc => ?_, fun e v' hcall => ?_,
    fun x hx keys g => ?_, fun r v' hcall w => (hcall.leaves hsettled).course_iff hsettled,
    fun s' hs => ?_⟩
  · have hbalanced := hsettled.alike.left.heap? hheap
    exact ⟨hsettled.live hheap, hbalanced.total, hbalanced.single⟩
  · have hplace := within hx _ (SchemeValuation.mem_cells.mpr ⟨name, c, hc, rfl⟩)
    obtain ⟨cell, hcell, -⟩ := hsettled.alike.cells _ _ hplace
    exact ⟨cell.value, Gates.runs_value_ok.mpr ⟨⟨cell, hcell, rfl⟩, rfl⟩⟩
  · have hkept := hcall.kept hsettled
    exact ⟨hkept.spares e rfl, fun _ _ => hkept.live_of_error hsettled⟩
  · obtain ⟨r, v', w', hv, hw, hclose⟩ := hsettled.execute hx keys g
    exact ⟨r, v', w', hv, hw, settle_of_closes hclose⟩
  · obtain ⟨v', hleaves⟩ := hs.leaves hsettled
    exact ⟨v', hleaves.ends, fun w => hleaves.course_iff hsettled⟩

/-- The difference of an encrypted six and a nine is held; its inputs have been dropped. -/
def difference : Custody :=
  ⟨⟨[⟨2, [(1, ⟨0, 3⟩)], 1, 0⟩]⟩, [⟨[("z", .cipher (Gates.Ciphertext.mk 0 1 0))]⟩]⟩

theorem reachable_difference : difference.Reachable := by
  have hderive : Runs (Exec.derive (.bitwise 8)) .empty (.ok gateKeys.context) ⟨[.empty]⟩ := by
    unfold Runs
    rfl
  have hencrypt : Runs (encrypt Scheme.bitwise gateKeys.context 0
      ⟨[("x", .byte 6), ("y", .byte 9)]⟩ gateDifference.signature) ⟨[.empty]⟩ (.ok sixAndNine)
      vaultOfSix := by
    unfold Runs
    rfl
  have hcontext := Reachable.step .empty (.derive hderive)
  have hinputs := hcontext.step (.call (.encrypt hencrypt))
  have hboth := hinputs.step (.call (.execute List.mem_cons_self execute_sixAndNine))
  have hdropped := hboth.step (.drop (.swap sixAndNine _ []))
  exact hdropped

/-- Of two cells that were handed out one is live, and stays so when a call fails. -/
theorem Reachable.released_once_difference :
    difference.Reachable ∧ (handlesOf difference.cells 0).dedup.length = 1 ∧
      (∃ value, Runs (Gates.value ⟨0, 1, 0⟩) difference.vault (.ok value) difference.vault) ∧
      ∀ e v', difference.Call (.error e) v' → ∃ heap,
        (settle v' difference.held).vault.heap? 0 = some heap ∧ heap.live = 1 := by
  obtain ⟨hlive, hread, hfails, -⟩ := Reachable.released_once reachable_difference
  obtain ⟨hcount, -⟩ := hlive 0 ⟨2, [(1, ⟨0, 3⟩)], 1, 0⟩ rfl
  exact ⟨reachable_difference, hcount.symm,
    hread _ List.mem_cons_self "z" _ List.mem_cons_self,
    fun e v' hcall => (hfails e v' hcall).2 0 _ rfl⟩

end Custody

end CipherGraph

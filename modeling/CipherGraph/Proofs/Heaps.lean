import CipherGraph.Proofs.Vaults

/-! # Accounts of native heaps

A heap that releases cells one at a time, and only live ones, has as many releases and live cells
as it has handed out handles. What a sweep leaves of it depends on the cells that are held, and not
on when the others were released.
-/

namespace CipherGraph

namespace NativeHeap

variable {h k : NativeHeap} {held dead : List Nat} {handle : Nat} {cell : NativeCell}

def handles (h : NativeHeap) : List Nat := h.cells.map (·.1)

/-- Every handle that was handed out has a cell or was released once. -/
structure Balanced (h : NativeHeap) : Prop where
  /-- The latest cells come first, each under a handle of its own. -/
  descending : h.handles.Pairwise (· > ·)
  issued : ∀ k ∈ h.handles, k < h.next
  total : h.releases + h.live = h.next
  single : h.doubleReleases = 0

theorem Balanced.empty : NativeHeap.empty.Balanced := ⟨.nil, nofun, rfl, rfl⟩

theorem Balanced.nodup (hb : h.Balanced) : h.handles.Nodup :=
  hb.descending.imp fun hlt => Nat.ne_of_gt hlt

theorem Balanced.alloc (hb : h.Balanced) (cell : NativeCell) : (h.alloc cell).2.Balanced where
  descending := List.pairwise_cons.mpr ⟨hb.issued, hb.descending⟩
  issued k hk := by
    rcases List.mem_cons.mp hk with rfl | hk
    · exact Nat.lt_succ_self _
    · exact Nat.lt_succ_of_lt (hb.issued k hk)
  total := by
    have htotal := hb.total
    simp only [live, NativeHeap.alloc, List.length_cons] at *
    omega
  single := hb.single

theorem Balanced.read?_eq_some (hb : h.Balanced) :
    h.read? handle = some cell ↔ (handle, cell) ∈ h.cells := by
  unfold read?
  rw [Option.map_eq_some_iff]
  constructor
  · rintro ⟨⟨k, _⟩, hfound, rfl⟩
    obtain rfl : k = handle := by simpa using List.find?_some hfound
    exact List.mem_of_find?_eq_some hfound
  · intro hmem
    cases hfound : h.cells.find? (·.1 = handle) with
    | none => simpa using List.find?_eq_none.mp hfound _ hmem
    | some c =>
      have hc : c.1 = handle := by simpa using List.find?_some hfound
      have heq := List.inj_on_of_nodup_map hb.nodup (List.mem_of_find?_eq_some hfound) hmem hc
      exact ⟨c, rfl, congrArg Prod.snd heq⟩

theorem Balanced.mem_handles (hb : h.Balanced) :
    handle ∈ h.handles ↔ ∃ cell, h.read? handle = some cell := by
  simp only [handles, List.mem_map, hb.read?_eq_some]
  exact ⟨fun ⟨c, hc, hk⟩ => ⟨c.2, hk ▸ hc⟩, fun ⟨cell, hc⟩ => ⟨_, hc, rfl⟩⟩

theorem handles_filter (h : NativeHeap) (p : Nat → Bool) :
    (h.cells.filter fun c => p c.1).map (·.1) = h.handles.filter p := by
  rw [handles, List.filter_map]
  rfl

theorem Balanced.release (hb : h.Balanced) (hlive : handle ∈ h.handles) :
    (h.release handle).Balanced ∧ (h.release handle).cells = h.cells.filter (·.1 != handle) := by
  have hfound : h.cells.any (·.1 = handle) = true := by
    obtain ⟨c, hc, rfl⟩ := List.mem_map.mp hlive
    exact List.any_eq_true.mpr ⟨c, hc, by simp⟩
  have hrelease : h.release handle =
      { h with cells := h.cells.filter (·.1 != handle), releases := h.releases + 1 } := by
    unfold NativeHeap.release
    rw [if_pos hfound]
    simp only [decide_not]
    rfl
  have hhandles : (h.release handle).handles = h.handles.erase handle := by
    rw [hb.nodup.erase_eq_filter, ← h.handles_filter (· != handle), handles, hrelease]
  refine ⟨⟨?_, fun k hk => ?_, ?_, ?_⟩, by rw [hrelease]⟩
  · exact hhandles ▸ hb.descending.sublist List.erase_sublist
  · rw [hhandles] at hk
    exact hrelease ▸ hb.issued k (List.mem_of_mem_erase hk)
  · have hlength : (h.release handle).live = h.live - 1 := by
      have hlength := congrArg List.length hhandles
      rwa [List.length_erase_of_mem hlive, handles, handles, List.length_map,
        List.length_map] at hlength
    have hpos : 0 < h.live := by
      rw [live, ← h.cells.length_map (·.1)]
      exact List.length_pos_of_mem hlive
    have htotal := hb.total
    rw [hlength, hrelease]
    dsimp only
    omega
  · exact hrelease ▸ hb.single

theorem Balanced.releases (hb : h.Balanced) (hnodup : dead.Nodup)
    (hlive : ∀ k ∈ dead, k ∈ h.handles) :
    (dead.foldl NativeHeap.release h).Balanced ∧
      (dead.foldl NativeHeap.release h).cells = h.cells.filter fun c => !dead.contains c.1 := by
  induction dead generalizing h with
  | nil => exact ⟨hb, by simp⟩
  | cons k dead ih =>
    obtain ⟨hnot, hnodup⟩ := List.nodup_cons.mp hnodup
    obtain ⟨hk, hlive⟩ := List.forall_mem_cons.mp hlive
    obtain ⟨hreleased, hcells⟩ := hb.release hk
    have hothers : ∀ j ∈ dead, j ∈ (h.release k).handles := by
      intro j hj
      rw [handles, hcells, h.handles_filter (· != k)]
      exact List.mem_filter.mpr ⟨hlive j hj, bne_iff_ne.mpr fun heq => hnot (heq ▸ hj)⟩
    obtain ⟨hbal, hrest⟩ := ih hreleased hnodup hothers
    refine ⟨hbal, hrest.trans ?_⟩
    rw [hcells, List.filter_filter]
    refine List.filter_congr fun c _ => ?_
    rw [List.contains_cons, Bool.not_or, Bool.and_comm]
    rfl

theorem Balanced.sweep (hb : h.Balanced) (held : List Nat) :
    (h.sweep held).Balanced ∧ (h.sweep held).cells = h.cells.filter fun c => held.contains c.1 := by
  have hdead : (h.handles.filter (!held.contains ·)).Nodup :=
    hb.nodup.sublist List.filter_sublist
  obtain ⟨hbal, hcells⟩ := hb.releases hdead fun k hk => (List.mem_filter.mp hk).1
  refine ⟨hbal, hcells.trans (List.filter_congr fun c hc => ?_)⟩
  have hmem : c.1 ∈ h.handles := List.mem_map_of_mem hc
  by_cases hheld : c.1 ∈ held <;> simp [hheld, hmem]

/-- Heaps that have handed out as many handles are the same once they keep the same cells. -/
theorem Balanced.sweep_eq (hh : h.Balanced) (hk : k.Balanced) (hnext : h.next = k.next)
    (hread : ∀ handle ∈ held, h.read? handle = k.read? handle) : h.sweep held = k.sweep held := by
  obtain ⟨hhb, hhc⟩ := hh.sweep held
  obtain ⟨hkb, hkc⟩ := hk.sweep held
  have hmem (c : Nat × NativeCell) : c ∈ (h.sweep held).cells ↔ c ∈ (k.sweep held).cells := by
    rw [hhc, hkc, List.mem_filter, List.mem_filter, List.contains_iff_mem]
    refine and_congr_left fun hheld => ?_
    rw [← hh.read?_eq_some, ← hk.read?_eq_some, hread c.1 hheld]
  have hcells : (h.sweep held).cells = (k.sweep held).cells := by
    have hperm := (List.perm_ext_iff_of_nodup (.of_map _ hhb.nodup) (.of_map _ hkb.nodup)).mpr hmem
    have hhdesc := List.pairwise_map.mp hhb.descending
    have hkdesc := List.pairwise_map.mp hkb.descending
    exact hperm.eq_of_pairwise (fun a b _ _ hab hba => absurd hab (Nat.lt_asymm hba)) hhdesc hkdesc
  have hnexts : (h.sweep held).next = (k.sweep held).next := by
    rw [(h.issued_sweep held).1, (k.issued_sweep held).1, hnext]
  have hreleases : (h.sweep held).releases = (k.sweep held).releases := by
    have hhtotal := hhb.total
    have hktotal := hkb.total
    rw [live, hcells] at hhtotal
    rw [live] at hktotal
    omega
  have hdouble := hhb.single.trans hkb.single.symm
  change NativeHeap.mk (h.sweep held).next (h.sweep held).cells (h.sweep held).releases
    (h.sweep held).doubleReleases = k.sweep held
  rw [hnexts, hcells, hreleases, hdouble]

end NativeHeap

namespace Vault

variable {v w : Vault} {K L : Set (Nat × Nat)} {held : List (Nat × Nat)} {context handle : Nat}

def Balanced (v : Vault) : Prop := ∀ h ∈ v.heaps, h.Balanced

theorem Balanced.heap? (hv : v.Balanced) {h : NativeHeap} (hh : v.heap? context = some h) :
    h.Balanced :=
  hv h (List.mem_of_getElem? hh)

def handlesOf (held : List (Nat × Nat)) (context : Nat) : List Nat :=
  (held.filter (·.1 = context)).map (·.2)

theorem mem_handlesOf : handle ∈ handlesOf held context ↔ (context, handle) ∈ held := by
  simp [handlesOf]

theorem heap?_sweep (v : Vault) (held : List (Nat × Nat)) (context : Nat) :
    (v.sweep held).heap? context = (v.heap? context).map (·.sweep (handlesOf held context)) := by
  simp only [heap?, sweep, List.getElem?_mapIdx]
  rfl

theorem Balanced.sweep (hv : v.Balanced) (held : List (Nat × Nat)) : (v.sweep held).Balanced := by
  intro h hh
  obtain ⟨context, hlt, rfl⟩ := List.mem_mapIdx.mp hh
  exact ((hv _ (List.getElem_mem hlt)).sweep _).1

theorem Balanced.read?_sweep (hv : v.Balanced) :
    (v.sweep held).read? context handle =
      if (context, handle) ∈ held then v.read? context handle else none := by
  rw [read?, heap?_sweep, read?]
  cases hh : v.heap? context with
  | none => simp
  | some h =>
    simp only [Option.map_some, Option.bind_some, ← mem_handlesOf]
    split
    · next hheld => exact h.read?_sweep hheld
    · next hheld =>
      obtain ⟨hswept, hcells⟩ := (hv.heap? hh).sweep (handlesOf held context)
      refine Option.eq_none_iff_forall_ne_some.mpr fun cell hcell => hheld ?_
      rw [hswept.read?_eq_some, hcells] at hcell
      exact List.contains_iff_mem.mp (List.mem_filter.mp hcell).2

inductive Adds (v : Vault) : Vault → Prop where
  | refl : Adds v v
  | alloc {v' : Vault} {context : Nat} {h : NativeHeap} (hv : Adds v v')
      (hh : v'.heap? context = some h) (cell : NativeCell) :
      Adds v ⟨v'.heaps.set context (h.alloc cell).2⟩

theorem Adds.trans {u : Vault} (h : v.Adds w) (h' : w.Adds u) : v.Adds u := by
  induction h' with
  | refl => exact h
  | alloc _ hh cell ih => exact ih.alloc hh cell

theorem Adds.length (h : v.Adds w) : w.heaps.length = v.heaps.length := by
  induction h with
  | refl => rfl
  | alloc _ _ _ ih => exact (List.length_set ..).trans ih

/-- Two vaults that have handed out the same handles and both hold the cells in `K`. -/
structure Alike (K : Set (Nat × Nat)) (v w : Vault) : Prop where
  left : v.Balanced
  right : w.Balanced
  next : v.heaps.map (·.next) = w.heaps.map (·.next)
  cells : ∀ context handle, (context, handle) ∈ K →
    ∃ cell, v.read? context handle = some cell ∧ w.read? context handle = some cell

theorem Alike.left_self (h : Alike K v w) : Alike K v v where
  left := h.left
  right := h.left
  next := rfl
  cells context handle hc := by
    obtain ⟨cell, hv, -⟩ := h.cells context handle hc
    exact ⟨cell, hv, hv⟩

theorem Alike.right_self (h : Alike K v w) : Alike K w w where
  left := h.right
  right := h.right
  next := rfl
  cells context handle hc := by
    obtain ⟨cell, -, hw⟩ := h.cells context handle hc
    exact ⟨cell, hw, hw⟩

theorem Alike.heap? (h : Alike K v w) {heap : NativeHeap} (hheap : v.heap? context = some heap) :
    ∃ heap', w.heap? context = some heap' ∧ heap'.next = heap.next := by
  have hnext : (w.heaps.map (·.next))[context]? = some heap.next := by
    rw [← h.next, List.getElem?_map, show v.heaps[context]? = some heap from hheap, Option.map_some]
  rwa [List.getElem?_map, Option.map_eq_some_iff] at hnext

theorem Alike.heap?_none (h : Alike K v w) (hheap : v.heap? context = none) :
    w.heap? context = none := by
  have hlength := congrArg List.length h.next
  rw [List.length_map, List.length_map] at hlength
  exact List.getElem?_eq_none (hlength ▸ List.getElem?_eq_none_iff.mp hheap)

theorem Alike.alloc (h : Alike K v w) {heap heap' : NativeHeap}
    (hheap : v.heap? context = some heap) (hheap' : w.heap? context = some heap')
    (hnext : heap'.next = heap.next) (cell : NativeCell) :
    Alike (insert (context, heap.next) K) ⟨v.heaps.set context (heap.alloc cell).2⟩
      ⟨w.heaps.set context (heap'.alloc cell).2⟩ where
  left k hk := by
    rcases List.mem_or_eq_of_mem_set hk with hk | rfl
    · exact h.left k hk
    · exact (h.left.heap? hheap).alloc cell
  right k hk := by
    rcases List.mem_or_eq_of_mem_set hk with hk | rfl
    · exact h.right k hk
    · exact (h.right.heap? hheap').alloc cell
  next := by
    rw [List.map_set, List.map_set, h.next]
    simp only [NativeHeap.alloc, hnext]
  cells k handle hc := by
    rw [read?_set hheap, read?_set hheap', NativeHeap.read?_alloc, NativeHeap.read?_alloc, hnext]
    by_cases hk : k = context ∧ heap.next = handle
    · obtain ⟨rfl, rfl⟩ := hk
      exact ⟨cell, by simp⟩
    · have hold : (k, handle) ∈ K := hc.resolve_left fun heq =>
        hk ⟨congrArg Prod.fst heq, (congrArg Prod.snd heq).symm⟩
      obtain ⟨old, hv, hw⟩ := h.cells k handle hold
      refine ⟨old, ?_⟩
      by_cases hcontext : k = context
      · subst hcontext
        have hne : ¬ heap.next = handle := fun heq => hk ⟨rfl, heq⟩
        rw [read?_of_heap? hheap] at hv
        rw [read?_of_heap? hheap'] at hw
        simp [hne, hv, hw]
      · simp [hcontext, hv, hw]

theorem Alike.derive (h : Alike K v w) :
    Alike K ⟨v.heaps ++ [.empty]⟩ ⟨w.heaps ++ [.empty]⟩ where
  left k hk := by
    rcases List.mem_append.mp hk with hk | hk
    · exact h.left k hk
    · exact List.mem_singleton.mp hk ▸ .empty
  right k hk := by
    rcases List.mem_append.mp hk with hk | hk
    · exact h.right k hk
    · exact List.mem_singleton.mp hk ▸ .empty
  next := by rw [List.map_append, List.map_append, h.next]
  cells context handle hc := by
    have hkept {u : Vault} {cell : NativeCell} (hu : u.read? context handle = some cell) :
        Vault.read? ⟨u.heaps ++ [.empty]⟩ context handle = some cell := by
      obtain ⟨heap, hheap, -⟩ := Option.bind_eq_some_iff.mp hu
      rw [read?, Vault.heap?, List.getElem?_append_left (List.getElem?_eq_some_iff.mp hheap).1]
      exact hu
    obtain ⟨cell, hv, hw⟩ := h.cells context handle hc
    exact ⟨cell, hkept hv, hkept hw⟩

theorem Alike.sweep (h : Alike K v w) (hL : L ⊆ K) (hheld : ∀ c ∈ L, c ∈ held) :
    Alike L v (w.sweep held) where
  left := h.left
  right := h.right.sweep held
  next := by
    rw [h.next]
    refine List.ext_getElem (by simp [Vault.sweep]) fun i _ _ => ?_
    simp [Vault.sweep, (NativeHeap.issued_sweep _ _).1]
  cells context handle hc := by
    obtain ⟨cell, hv, hw⟩ := h.cells context handle (hL hc)
    rw [h.right.read?_sweep, if_pos (hheld _ hc)]
    exact ⟨cell, hv, hw⟩

theorem Alike.sweep_eq (h : Alike K v w) (hheld : ∀ c ∈ held, c ∈ K) :
    v.sweep held = w.sweep held := by
  have hheaps (context : Nat) : (v.sweep held).heap? context = (w.sweep held).heap? context := by
    rw [heap?_sweep, heap?_sweep]
    cases hv : v.heap? context with
    | none => rw [h.heap?_none hv]
    | some heap =>
      obtain ⟨heap', hw, hnext⟩ := h.heap? hv
      rw [hw, Option.map_some, Option.map_some]
      refine congrArg some ((h.left.heap? hv).sweep_eq (h.right.heap? hw) hnext.symm fun k hk => ?_)
      obtain ⟨cell, hcell, hcell'⟩ := h.cells context k (hheld _ (mem_handlesOf.mp hk))
      rw [← read?_of_heap? hv, ← read?_of_heap? hw, hcell, hcell']
  exact congrArg Vault.mk (List.ext_getElem? hheaps)

end Vault

end CipherGraph

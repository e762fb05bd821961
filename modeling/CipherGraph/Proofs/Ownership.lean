import CipherGraph.Proofs.Heaps
import Mathlib.Data.Multiset.AddSub
import Mathlib.Logic.Relation

/-! # Ownership of native cells

A cell is owned by the handles that refer to it. Handles are copied and dropped one at a time, and
the drop of the last one releases the cell. In whatever order this happens, and however it mixes
with the handing out of further cells, the heaps are left with the cells that are still owned.
-/

namespace CipherGraph

namespace NativeHeap

theorem read?_release_self (h : NativeHeap) (handle : Nat) :
    (h.release handle).read? handle = none := by
  unfold release
  split
  · simp [read?, List.find?_filter]
  · next hdead =>
    simp only [List.any_eq_true, not_exists, not_and] at hdead
    simp [read?, List.find?_eq_none.mpr hdead]

end NativeHeap

namespace Vault

variable {v w : Vault} {K L : Set (Nat × Nat)} {held : List (Nat × Nat)} {context handle : Nat}

/-- The last handle of a cell has been dropped. -/
def release (v : Vault) (context handle : Nat) : Vault :=
  match v.heap? context with
  | some h => ⟨v.heaps.set context (h.release handle)⟩
  | none => v

theorem read?_release (v : Vault) (context handle k j : Nat) :
    (v.release context handle).read? k j =
      if (k, j) = (context, handle) then none else v.read? k j := by
  unfold release
  split
  · next h hh =>
    rw [read?_set hh]
    by_cases hk : k = context
    · subst hk
      by_cases hj : j = handle
      · simp [hj, h.read?_release_self]
      · simp [hj, h.read?_release hj, read?_of_heap? hh]
    · simp [hk]
  · next hh =>
    split
    · next heq =>
      cases heq
      simp [read?, hh]
    · rfl

theorem read?_derive (v : Vault) (k j : Nat) :
    Vault.read? ⟨v.heaps ++ [.empty]⟩ k j = v.read? k j := by
  unfold read? heap?
  rcases Nat.lt_or_ge k v.heaps.length with hlt | hge
  · rw [List.getElem?_append_left hlt]
  · rw [List.getElem?_append_right hge, List.getElem?_eq_none hge]
    cases k - v.heaps.length <;> rfl

theorem sweep_of_held (h : ∀ context handle, (v.read? context handle).isSome = true →
    (context, handle) ∈ held) (hv : v.Balanced) : v.sweep held = v := by
  have hheaps : ∀ context, (v.sweep held).heap? context = v.heap? context := by
    intro context
    rw [heap?_sweep]
    cases hh : v.heap? context with
    | none => rfl
    | some heap =>
      have hnone : heap.handles.filter (!(handlesOf held context).contains ·) = [] := by
        refine List.filter_eq_nil_iff.mpr fun k hk => ?_
        obtain ⟨cell, hcell⟩ := (hv.heap? hh).mem_handles.mp hk
        have hmem := h context k (by rw [read?_of_heap? hh, hcell]; rfl)
        simpa using mem_handlesOf.mpr hmem
      exact congrArg some (congrArg (List.foldl NativeHeap.release heap) hnone)
  exact congrArg Vault.mk (List.ext_getElem? hheaps)

theorem Alike.mono (h : Alike K v w) (hL : L ⊆ K) : Alike L v w :=
  { h with cells := fun context handle hc => h.cells context handle (hL hc) }

theorem Alike.release (h : Alike K v w) (hlive : (w.read? context handle).isSome = true)
    (hL : L ⊆ K) (hnot : (context, handle) ∉ L) : Alike L v (w.release context handle) := by
  obtain ⟨cell, hcell⟩ := Option.isSome_iff_exists.mp hlive
  obtain ⟨heap, hheap, hread⟩ := Option.bind_eq_some_iff.mp hcell
  have hbalanced := h.right.heap? hheap
  have hrelease : w.release context handle = ⟨w.heaps.set context (heap.release handle)⟩ := by
    rw [Vault.release, hheap]
  refine ⟨h.left, fun k hk => ?_, ?_, fun k j hc => ?_⟩
  · rw [hrelease] at hk
    rcases List.mem_or_eq_of_mem_set hk with hk | rfl
    · exact h.right k hk
    · exact (hbalanced.release (hbalanced.mem_handles.mpr ⟨cell, hread⟩)).1
  · rw [h.next, hrelease, List.map_set, (heap.issued_release handle).1]
    obtain ⟨hlt, hget⟩ := List.getElem?_eq_some_iff.mp hheap
    refine List.ext_getElem? fun k => ?_
    rcases eq_or_ne context k with rfl | hk
    · rw [List.getElem?_set_self (by simpa using hlt), List.getElem?_map,
        List.getElem?_eq_getElem hlt, hget, Option.map_some]
    · rw [List.getElem?_set_ne hk]
  · obtain ⟨cell', hv, hw⟩ := h.cells k j (hL hc)
    refine ⟨cell', hv, ?_⟩
    have hne : (k, j) ≠ (context, handle) := by
      rintro ⟨⟩
      exact hnot hc
    rw [read?_release, if_neg hne, hw]

end Vault

open Vault (Alike)

/-- Heaps, and the handles that refer to their cells, each as often as there are copies of it. -/
structure Ownership where
  /-- The heaps as they would be had nothing been released. -/
  issued : Vault
  vault : Vault
  handles : Multiset (Nat × Nat)

namespace Ownership

variable {o o' : Ownership} {c : Nat × Nat} {handles : Multiset (Nat × Nat)} {v v' w : Vault}

/-- The drop of the last handle releases the cell. -/
def drop (o : Ownership) (c : Nat × Nat) : Ownership where
  issued := o.issued
  vault := if o.handles.count c = 1 then o.vault.release c.1 c.2 else o.vault
  handles := o.handles.erase c

/-- Contexts are derived, cells are handed out to one owner each, and owners copy and drop their
handles. -/
inductive Step (o : Ownership) : Ownership → Prop where
  | derive : Step o ⟨⟨o.issued.heaps ++ [.empty]⟩, ⟨o.vault.heaps ++ [.empty]⟩, o.handles⟩
  | alloc {context : Nat} {h h' : NativeHeap} (hh : o.issued.heap? context = some h)
      (hh' : o.vault.heap? context = some h') (cell : NativeCell) :
      Step o ⟨⟨o.issued.heaps.set context (h.alloc cell).2⟩,
        ⟨o.vault.heaps.set context (h'.alloc cell).2⟩, (context, h'.next) ::ₘ o.handles⟩
  | copy {c : Nat × Nat} (hc : c ∈ o.handles) : Step o { o with handles := c ::ₘ o.handles }
  | drop {c : Nat × Nat} (hc : c ∈ o.handles) : Step o (o.drop c)

abbrev Course : Ownership → Ownership → Prop := Relation.ReflTransGen Step

/-- Just the cells that are owned are live, and they are as they were handed out. -/
structure Accounted (o : Ownership) : Prop where
  alike : Alike {c | c ∈ o.handles} o.issued o.vault
  owned : ∀ context handle, (o.vault.read? context handle).isSome = true →
    (context, handle) ∈ o.handles

theorem Accounted.live (h : o.Accounted) (hc : c ∈ o.handles) :
    (o.vault.read? c.1 c.2).isSome = true := by
  obtain ⟨cell, -, hw⟩ := h.alike.cells c.1 c.2 hc
  rw [hw]
  rfl

theorem Accounted.drop (h : o.Accounted) (hc : c ∈ o.handles) : (o.drop c).Accounted := by
  have hsubset : {d | d ∈ o.handles.erase c} ⊆ {d | d ∈ o.handles} :=
    fun _ => Multiset.mem_of_mem_erase
  unfold Ownership.drop
  split
  · next hlast =>
    have hgone : c ∉ o.handles.erase c := by
      rw [← Multiset.count_eq_zero, Multiset.count_erase_self, hlast]
    refine ⟨h.alike.release (h.live hc) hsubset hgone, fun k j hread => ?_⟩
    rw [Vault.read?_release] at hread
    split at hread
    · cases hread
    · next hne => exact (Multiset.mem_erase_of_ne hne).mpr (h.owned k j hread)
  · next hmore =>
    refine ⟨h.alike.mono hsubset, fun k j hread => ?_⟩
    have howned := h.owned k j hread
    by_cases heq : (k, j) = c
    · have hpos := Multiset.count_pos.mpr hc
      rw [heq, ← Multiset.count_pos, Multiset.count_erase_self]
      omega
    · exact (Multiset.mem_erase_of_ne heq).mpr howned

theorem Step.accounted (hs : o.Step o') (h : o.Accounted) : o'.Accounted := by
  cases hs with
  | derive =>
    exact ⟨h.alike.derive, fun k j hread => h.owned k j (o.vault.read?_derive k j ▸ hread)⟩
  | @alloc context heap heap' hh hh' cell =>
    obtain ⟨heap₁, hheap₁, hnext⟩ := h.alike.heap? hh
    obtain rfl : heap₁ = heap' := Option.some.inj (hheap₁.symm.trans hh')
    refine ⟨(h.alike.alloc hh hh' hnext cell).mono fun c hc => ?_, fun k j hread => ?_⟩
    · exact (Multiset.mem_cons.mp hc).imp (fun heq => hnext ▸ heq) id
    · rw [Vault.read?_set hh', NativeHeap.read?_alloc] at hread
      refine Multiset.mem_cons.mpr ?_
      split at hread
      · next hk =>
        subst hk
        split at hread
        · next hj => exact .inl (by rw [hj])
        · exact .inr (h.owned k j (Vault.read?_of_heap? hh' j ▸ hread))
      · exact .inr (h.owned k j hread)
  | copy hc =>
    refine ⟨h.alike.mono fun d hd => ?_, fun k j hread => ?_⟩
    · exact (Multiset.mem_cons.mp hd).elim (fun heq => heq ▸ hc) id
    · exact Multiset.mem_cons_of_mem (h.owned k j hread)
  | drop hc => exact h.drop hc

theorem Course.accounted (hc : Course o o') (h : o.Accounted) : o'.Accounted := by
  induction hc with
  | refl => exact h
  | tail _ hs ih => exact hs.accounted ih

/-- What the owners leave does not depend on when cells were released. -/
theorem Accounted.vault_eq (h : o.Accounted) {held : List (Nat × Nat)}
    (hheld : ∀ c, c ∈ held ↔ c ∈ o.handles) : o.vault = o.issued.sweep held := by
  rw [h.alike.sweep_eq fun c hc => (hheld c).mp hc]
  exact (Vault.sweep_of_held (fun k j hread => (hheld _).mpr (h.owned k j hread))
    h.alike.right).symm

theorem course_copy (hsome : ∀ c ∈ handles, c ∈ o.handles) :
    Course o { o with handles := handles + o.handles } := by
  induction handles using Multiset.induction with
  | empty => rw [Multiset.zero_add]
  | cons c handles ih =>
    rw [Multiset.cons_add]
    refine (ih fun d hd => hsome d (Multiset.mem_cons_of_mem hd)).tail (.copy ?_)
    exact Multiset.mem_add.mpr (.inr (hsome c (Multiset.mem_cons_self c handles)))

theorem course_drop (dropped : Multiset (Nat × Nat)) (h : o.handles = dropped + handles) :
    ∃ w, Course o ⟨o.issued, w, handles⟩ := by
  induction dropped using Multiset.induction generalizing o with
  | empty =>
    rw [Multiset.zero_add] at h
    exact ⟨o.vault, h ▸ .refl⟩
  | cons c dropped ih =>
    rw [Multiset.cons_add] at h
    obtain ⟨w, hw⟩ := @ih (o.drop c) (by rw [Ownership.drop, h, Multiset.erase_cons_head])
    exact ⟨w, .head (.drop (h ▸ Multiset.mem_cons_self ..)) hw⟩

theorem exists_course (hsome : ∀ c ∈ handles, c ∈ o.handles) :
    ∃ w, Course o ⟨o.issued, w, handles⟩ := by
  have hcopy := course_copy hsome
  obtain ⟨w, hw⟩ := course_drop (o := { o with handles := handles + o.handles }) o.handles
    (Multiset.add_comm ..)
  exact ⟨w, hcopy.trans hw⟩

theorem course_of_adds (h : v.Adds v') (handles : Multiset (Nat × Nat)) :
    ∃ handles', Course ⟨v, v, handles⟩ ⟨v', v', handles'⟩ := by
  induction h with
  | refl => exact ⟨handles, .refl⟩
  | alloc _ hh cell ih =>
    obtain ⟨handles', hc⟩ := ih
    exact ⟨_, hc.tail (.alloc hh hh cell)⟩

/-- Once cells have been handed out, copying and dropping handles of them leads to a sweep of the
heaps in the end, and to nothing else. -/
theorem course_iff {held : List (Nat × Nat)} {handles₁ : Multiset (Nat × Nat)}
    (hv : Accounted ⟨v, v, handles⟩) (hgrown : Course ⟨v, v, handles⟩ ⟨v', v', handles₁⟩)
    (hlive : ∀ c ∈ held, (v'.read? c.1 c.2).isSome = true) :
    Course ⟨v, v, handles⟩ ⟨v', w, held⟩ ↔ w = v'.sweep held := by
  have hvault {w : Vault} (hc : Course ⟨v, v, handles⟩ ⟨v', w, held⟩) : w = v'.sweep held :=
    (hc.accounted hv).vault_eq fun c => Multiset.mem_coe.symm
  refine ⟨hvault, ?_⟩
  rintro rfl
  have howned : ∀ c ∈ (held : Multiset (Nat × Nat)), c ∈ handles₁ := fun c hc =>
    (hgrown.accounted hv).owned c.1 c.2 (hlive c (Multiset.mem_coe.mp hc))
  obtain ⟨w, hw⟩ := exists_course (o := ⟨v', v', handles₁⟩) howned
  have hcourse := hgrown.trans hw
  exact hvault hcourse ▸ hcourse

end Ownership

end CipherGraph

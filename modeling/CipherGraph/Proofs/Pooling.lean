import CipherGraph.Compile.Requirements
import Mathlib.Data.List.Sort
import Mathlib.Order.Basic

/-! # Pooled requirements

One key pair serves several graphs if it covers what each of them needs. The union of requirements
is the least that covers both sides, so that it makes no difference in which order, how often, or
how grouped requirements are pooled.
-/

namespace CipherGraph

namespace Ascending

variable {s t : List Int} {a : Int}

theorem pairwise_insert (hs : s.Pairwise (· < ·)) : (insert a s).Pairwise (· < ·) := by
  induction s with
  | nil => exact List.pairwise_singleton _ a
  | cons b s ih =>
    obtain ⟨hb, hs'⟩ := List.pairwise_cons.mp hs
    unfold insert
    split
    · next hlt =>
      refine List.pairwise_cons.mpr ⟨List.forall_mem_cons.mpr ⟨hlt, fun c hc => ?_⟩, hs⟩
      exact hlt.trans (hb c hc)
    · next hge =>
      split
      · exact hs
      · next hne =>
        refine List.pairwise_cons.mpr ⟨fun c hc => ?_, ih hs'⟩
        rcases (mem_insert a c s).mp hc with rfl | hc
        · omega
        · exact hb c hc

theorem pairwise_union (hs : s.Pairwise (· < ·)) : (union s t).Pairwise (· < ·) := by
  unfold union
  induction t generalizing s with
  | nil => exact hs
  | cons a t ih => exact ih (pairwise_insert hs)

end Ascending

namespace KeyRequirements

variable {a b c q r : KeyRequirements} {rs rs' : List KeyRequirements}

def Ascends (r : KeyRequirements) : Prop := r.rotationSteps.Pairwise (· < ·)

instance (r : KeyRequirements) : Decidable r.Ascends :=
  inferInstanceAs (Decidable (r.rotationSteps.Pairwise (· < ·)))

/-- Keys made for `a` serve `b`. -/
structure Covers (a b : KeyRequirements) : Prop where
  rotationSteps : ∀ step ∈ b.rotationSteps, step ∈ a.rotationSteps
  depth : b.depth ≤ a.depth
  relinearize : b.relinearize = true → a.relinearize = true
  width : b.width ≤ a.width

theorem Covers.refl (a : KeyRequirements) : a.Covers a :=
  ⟨fun _ h => h, Nat.le_refl _, id, Nat.le_refl _⟩

theorem Covers.antisymm (h : a.Covers b) (h' : b.Covers a) (ha : a.Ascends) (hb : b.Ascends) :
    a = b := by
  obtain ⟨steps, depth, relinearize, width⟩ := a
  obtain ⟨steps', depth', relinearize', width'⟩ := b
  have hsteps : steps = steps' := ha.eq_of_mem_iff hb fun step =>
    ⟨h'.rotationSteps step, h.rotationSteps step⟩
  have hdepth : depth = depth' := Nat.le_antisymm h'.depth h.depth
  have hrelinearize : relinearize = relinearize' :=
    Bool.eq_iff_iff.mpr ⟨h'.relinearize, h.relinearize⟩
  have hwidth : width = width' := Nat.le_antisymm h'.width h.width
  rw [hsteps, hdepth, hrelinearize, hwidth]

theorem eq_of_covers_iff (ha : a.Ascends) (hb : b.Ascends)
    (h : ∀ q : KeyRequirements, q.Covers a ↔ q.Covers b) : a = b :=
  ((h a).mp (.refl a)).antisymm ((h b).mpr (.refl b)) ha hb

theorem ascends_none : none.Ascends := List.Pairwise.nil

theorem covers_none (q : KeyRequirements) : q.Covers none :=
  ⟨nofun, Nat.zero_le _, nofun, Nat.zero_le _⟩

theorem Ascends.union (ha : a.Ascends) (b : KeyRequirements) : (a.union b).Ascends :=
  Ascending.pairwise_union ha

theorem covers_union_iff : q.Covers (a.union b) ↔ q.Covers a ∧ q.Covers b := by
  constructor
  · intro h
    have hsteps := h.rotationSteps
    have hdepth := h.depth
    have hrelinearize := h.relinearize
    have hwidth := h.width
    simp only [union, Ascending.mem_union, or_imp, forall_and, Nat.max_le,
      Bool.or_eq_true] at hsteps hdepth hrelinearize hwidth
    exact ⟨⟨hsteps.1, hdepth.1, hrelinearize.1, hwidth.1⟩,
      ⟨hsteps.2, hdepth.2, hrelinearize.2, hwidth.2⟩⟩
  · rintro ⟨ha, hb⟩
    refine ⟨fun step hstep => ?_, Nat.max_le.mpr ⟨ha.depth, hb.depth⟩, fun hor => ?_,
      Nat.max_le.mpr ⟨ha.width, hb.width⟩⟩
    · exact ((Ascending.mem_union step _ _).mp hstep).elim (ha.rotationSteps step)
        (hb.rotationSteps step)
    · exact (Bool.or_eq_true_iff.mp hor).elim ha.relinearize hb.relinearize

theorem union_comm (ha : a.Ascends) (hb : b.Ascends) : a.union b = b.union a :=
  eq_of_covers_iff (ha.union b) (hb.union a) fun q => by
    rw [covers_union_iff, covers_union_iff, and_comm]

theorem union_assoc (ha : a.Ascends) (b c : KeyRequirements) :
    (a.union b).union c = a.union (b.union c) :=
  eq_of_covers_iff ((ha.union b).union c) (ha.union (b.union c)) fun q => by
    simp only [covers_union_iff, and_assoc]

theorem union_self (ha : a.Ascends) : a.union a = a :=
  eq_of_covers_iff (ha.union a) ha fun q => by rw [covers_union_iff, and_self]

theorem union_none (a : KeyRequirements) : a.union none = a := by
  simp [union, none, Ascending.union]

theorem none_union (ha : a.Ascends) : none.union a = a := by
  rw [union_comm ascends_none ha, union_none]

def pooled (rs : List KeyRequirements) : KeyRequirements := rs.foldl union none

theorem ascends_pooled (rs : List KeyRequirements) : (pooled rs).Ascends := by
  have hfold (r : KeyRequirements) (hr : r.Ascends) : (rs.foldl union r).Ascends := by
    induction rs generalizing r with
    | nil => exact hr
    | cons a rs ih => exact ih _ (hr.union a)
  exact hfold none ascends_none

/-- A pool is covered by whatever covers all its parts, so that it is the least that does. -/
theorem covers_pooled_iff : q.Covers (pooled rs) ↔ ∀ r ∈ rs, q.Covers r := by
  have hfold (a : KeyRequirements) :
      q.Covers (rs.foldl union a) ↔ q.Covers a ∧ ∀ r ∈ rs, q.Covers r := by
    induction rs generalizing a with
    | nil => simp
    | cons r rs ih => rw [List.foldl_cons, ih, covers_union_iff, List.forall_mem_cons, and_assoc]
  rw [pooled, hfold, and_iff_right (covers_none q)]

/-- Only what is pooled matters, not in which order and how often. -/
theorem pooled_congr (h : ∀ r, r ∈ rs ↔ r ∈ rs') : pooled rs = pooled rs' :=
  eq_of_covers_iff (ascends_pooled rs) (ascends_pooled rs') fun q => by
    simp only [covers_pooled_iff, h]

end KeyRequirements

end CipherGraph

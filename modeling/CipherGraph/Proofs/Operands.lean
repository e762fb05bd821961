import CipherGraph.Graph.Build
import Mathlib.Data.List.Basic
import Mathlib.Data.List.Perm.Basic

/-! # Operand lists

An operand list is a stable sort of incoming edges, so it is given by what comes in at every
single position. The edges of one position keep their order, which is that of `incoming`.
-/

namespace CipherGraph

/-- Edges in position order, those of one position in the order they had. -/
def byPosition (edges : List Edge) : List Edge := edges.mergeSort fun a b => a.position ≤ b.position

def atPosition (p : Nat) (edges : List Edge) : List Edge := edges.filter (·.position = p)

theorem byPosition_perm (edges : List Edge) : (byPosition edges).Perm edges :=
  List.mergeSort_perm ..

theorem position_trans (a b c : Edge) (hab : decide (a.position ≤ b.position) = true)
    (hbc : decide (b.position ≤ c.position) = true) : decide (a.position ≤ c.position) = true := by
  simp only [decide_eq_true_eq] at *
  omega

theorem position_total (a b : Edge) :
    (decide (a.position ≤ b.position) || decide (b.position ≤ a.position)) = true := by
  simp only [Bool.or_eq_true, decide_eq_true_eq]
  omega

theorem byPosition_pairwise (edges : List Edge) :
    (byPosition edges).Pairwise fun a b => a.position ≤ b.position := by
  have h := List.pairwise_mergeSort position_trans position_total edges
  exact h.imp fun hab => of_decide_eq_true hab

theorem atPosition_byPosition (p : Nat) (edges : List Edge) :
    atPosition p (byPosition edges) = atPosition p edges := by
  induction edges with
  | nil => simp [byPosition]
  | cons e edges ih =>
    obtain ⟨l₁, l₂, h, h', hl⟩ := List.mergeSort_cons position_trans position_total e edges
    unfold byPosition atPosition at ih ⊢
    rw [h'] at ih
    rw [h, List.filter_append, List.filter_cons, List.filter_cons, ← ih, List.filter_append]
    by_cases hp : e.position = p
    · -- Everything sorted before `e` has a smaller position.
      have hnone : l₁.filter (·.position = p) = [] := by
        rw [List.filter_eq_nil_iff]
        intro b hb
        have := hl b hb
        simp only [Bool.not_eq_eq_eq_not, Bool.not_true, decide_eq_false_iff_not] at this
        simp only [decide_eq_true_eq]
        omega
      simp [hp, hnone]
    · simp [hp]

theorem eq_of_filter_key_eq {α : Type} {s t : List (Nat × α)}
    (hs : s.Pairwise fun a b => a.1 ≤ b.1) (ht : t.Pairwise fun a b => a.1 ≤ b.1)
    (h : ∀ p, s.filter (·.1 = p) = t.filter (·.1 = p)) : s = t := by
  induction s generalizing t with
  | nil =>
    cases t with
    | nil => rfl
    | cons b t => simpa using h b.1
  | cons a s ih =>
    cases t with
    | nil => simpa using h a.1
    | cons b t =>
      obtain ⟨ha, hs'⟩ := List.pairwise_cons.mp hs
      obtain ⟨hb, ht'⟩ := List.pairwise_cons.mp ht
      have hmem : a ∈ (b :: t).filter (·.1 = a.1) := by rw [← h a.1]; simp
      have hmem' : b ∈ (a :: s).filter (·.1 = b.1) := by rw [h b.1]; simp
      have hle : b.1 ≤ a.1 := by
        rcases List.mem_cons.mp (List.mem_filter.mp hmem).1 with rfl | hm
        · exact Nat.le_refl _
        · exact hb a hm
      have hge : a.1 ≤ b.1 := by
        rcases List.mem_cons.mp (List.mem_filter.mp hmem').1 with rfl | hm
        · exact Nat.le_refl _
        · exact ha b hm
      have hkey : a.1 = b.1 := Nat.le_antisymm hge hle
      have hhead := h a.1
      simp only [List.filter_cons, hkey, decide_true, ↓reduceIte, List.cons.injEq] at hhead
      obtain ⟨rfl, -⟩ := hhead
      refine congrArg _ (ih hs' ht' fun p => ?_)
      have hp := h p
      by_cases hap : a.1 = p <;> simpa [List.filter_cons, hap] using hp

variable {β : Type}

theorem filter_pair_byPosition (edges : List Edge) (f : Edge → β) (p : Nat) :
    ((byPosition edges).map fun e => (e.position, f e)).filter (·.1 = p) =
      (atPosition p edges).map fun e => (e.position, f e) := by
  rw [List.filter_map, ← atPosition_byPosition p edges]
  rfl

theorem pairwise_pair_byPosition (edges : List Edge) (f : Edge → β) :
    ((byPosition edges).map fun e => (e.position, f e)).Pairwise fun a b => a.1 ≤ b.1 :=
  List.pairwise_map.mpr (byPosition_pairwise edges)

theorem map_pair_atPosition {edges other : List Edge} {f g : Edge → β} {p : Nat} :
    ((atPosition p edges).map fun e => (e.position, f e)) =
        ((atPosition p other).map fun e => (e.position, g e)) ↔
      (atPosition p edges).map f = (atPosition p other).map g := by
  have hpair (edges : List Edge) (f : Edge → β) :
      ((atPosition p edges).map fun e => (e.position, f e)) =
        ((atPosition p edges).map f).map (p, ·) := by
    rw [List.map_map]
    refine List.map_congr_left ?_
    intro e he
    have := (List.mem_filter.mp he).2
    simp only [decide_eq_true_eq] at this
    rw [Function.comp_apply, this]
  rw [hpair, hpair]
  exact (List.map_injective_iff.mpr fun a b h => (Prod.mk.inj h).2).eq_iff

/-- Sorted lists of as many edges at every position agree if they agree at every position. -/
theorem map_byPosition_eq_iff {edges other : List Edge} {f g : Edge → β}
    (hlen : ∀ p, (atPosition p edges).length = (atPosition p other).length) :
    (byPosition edges).map f = (byPosition other).map g ↔
      ∀ p, (atPosition p edges).map f = (atPosition p other).map g := by
  have hpos : (byPosition edges).map (·.position) = (byPosition other).map (·.position) := by
    have hpair := eq_of_filter_key_eq (pairwise_pair_byPosition edges fun _ => ())
      (pairwise_pair_byPosition other fun _ => ()) fun p => by
        rw [filter_pair_byPosition, filter_pair_byPosition, map_pair_atPosition]
        simp [hlen p]
    simpa [Function.comp_def] using congrArg (List.map Prod.fst) hpair
  constructor
  · intro h p
    rw [← map_pair_atPosition, ← filter_pair_byPosition, ← filter_pair_byPosition]
    refine congrArg (List.filter _) ?_
    rw [← List.zip_map', ← List.zip_map', hpos, h]
  · intro h
    have hpair := eq_of_filter_key_eq (pairwise_pair_byPosition edges f)
      (pairwise_pair_byPosition other g) fun p => by
        rw [filter_pair_byPosition, filter_pair_byPosition, map_pair_atPosition, h p]
    simpa [Function.comp_def] using congrArg (List.map Prod.snd) hpair

namespace Graph

variable {g : Graph}

theorem operands_eq (g : Graph) (id : NodeId) :
    g.operands id = (byPosition (g.incoming id)).map (·.source.id) := rfl

@[simp] theorem length_operands (g : Graph) (id : NodeId) :
    (g.operands id).length = (g.incoming id).length := by
  rw [operands_eq, List.length_map, (byPosition_perm _).length_eq]

theorem mem_operands {id operand : NodeId} :
    operand ∈ g.operands id ↔ ∃ e ∈ g.incoming id, e.source.id = operand := by
  rw [operands_eq, ((byPosition_perm _).map _).mem_iff, List.mem_map]

theorem mem_incoming {e : Edge} {id : NodeId} :
    e ∈ g.incoming id ↔ e ∈ g.edges ∧ e.target = g.place id := by
  simp [incoming]

end Graph

end CipherGraph

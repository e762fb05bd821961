import CipherGraph.Execution.Value
import CipherGraph.Scheme.Packed
import Mathlib.Data.ZMod.Basic

/-! # Cyclic vectors in slots

A vector of `w` entries, indexed by the residues of `w`, fills any number of slots by going round.
Slot by slot operations, and turns by whole rows, then act on the vector as they do on the slots.
-/

namespace CipherGraph

def spread {α : Type} {w : Nat} (n : Nat) (x : ZMod w → α) : List α :=
  (List.range n).map fun j : Nat => x j

def turned {α : Type} {w : Nat} (x : ZMod w → α) (k : ZMod w) : ZMod w → α := fun i => x (i + k)

/-- The cyclic vector that a list makes whose length divides `w`. -/
def cycle {α : Type} [Inhabited α] (w : Nat) (l : List α) : ZMod w → α :=
  fun i => l.getD (i.val % l.length) default

variable {α β γ : Type} {w n m k row : Nat} {x : ZMod w → α} {step : Int}

@[simp] theorem length_spread : (spread n x).length = n := by simp [spread]

theorem map_spread (f : α → β) : (spread n x).map f = spread n fun i => f (x i) := by
  simp [spread, Function.comp_def]

theorem zipWith_spread (f : α → β → γ) (y : ZMod w → β) :
    List.zipWith f (spread n x) (spread n y) = spread n fun i => f (x i) (y i) := by
  simp [spread]

theorem turned_turned (x : ZMod w → α) (k l : ZMod w) :
    turned (turned x k) l = turned x (l + k) := by
  funext i
  rw [turned, turned, turned, add_assoc]

theorem turned_of_dvd (h : w ∣ n) : turned x n = x := by
  funext i
  rw [turned, (ZMod.natCast_eq_zero_iff n w).mpr h, add_zero]

theorem spread_add : spread (n + m) x = spread n x ++ spread m (turned x n) := by
  simp only [spread, List.range_add, List.map_append, List.map_map]
  congr 1
  refine List.map_congr_left ?_
  intro j _
  simp [turned, add_comm]

theorem take_spread (h : n ≤ m) : (spread m x).take n = spread n x := by
  obtain ⟨k, rfl⟩ := Nat.exists_eq_add_of_le h
  rw [spread_add, List.take_left' length_spread]

theorem drop_spread : (spread (n + m) x).drop n = spread m (turned x n) := by
  rw [spread_add, List.drop_left' length_spread]

theorem turnLeft_spread (hw : w ∣ n) (hk : k ≤ n) :
    turnLeft k (spread n x) = spread n (turned x k) := by
  obtain ⟨m, rfl⟩ := Nat.exists_eq_add_of_le hk
  have hround : turned (turned x k) m = x := by
    rw [turned_turned, ← Nat.cast_add, Nat.add_comm]
    exact turned_of_dvd hw
  rw [turnLeft, drop_spread, take_spread hk, Nat.add_comm k m, spread_add, hround]

theorem natCast_emod {r : Nat} (hr : 0 < r) (hw : w ∣ r) :
    ((step.emod r).toNat : ZMod w) = step := by
  have hnonneg : 0 ≤ step.emod r := Int.emod_nonneg step (by omega)
  rw [← Int.cast_natCast, Int.toNat_of_nonneg hnonneg]
  refine (ZMod.intCast_eq_intCast_iff _ _ w).mpr ?_
  exact (Int.mod_modEq step r).of_dvd (Int.natCast_dvd_natCast.mpr hw)

theorem turnBy_spread (hw : 0 < w) :
    turnBy step (spread w x) = spread w (turned x step) := by
  have hlt : step.emod w < w := Int.emod_lt_of_pos step (by omega)
  rw [turnBy, length_spread, turnLeft_spread (Nat.dvd_refl w) (by omega),
    natCast_emod hw (Nat.dvd_refl w)]

theorem turnRows_spread (hw : w ∣ row + 1) (hk : k < row + 1) (rows : Nat) :
    Packed.turnRows row k (spread ((row + 1) * rows) x) =
      spread ((row + 1) * rows) (turned x k) := by
  have hwhole := turnLeft_spread (x := x) hw (Nat.le_of_lt hk)
  induction rows with
  | zero =>
    rw [Packed.turnRows]
    simp [spread, turnLeft]
  | succ rows ih =>
    rw [Packed.turnRows, length_spread, Nat.mul_succ, Nat.add_comm ((row + 1) * rows)]
    split
    · next hle =>
      have hrest : (row + 1) * rows = 0 := by omega
      rw [hrest, Nat.add_zero, Nat.mod_eq_of_lt hk, hwhole]
    · rw [take_spread (Nat.le_add_right ..), drop_spread, turned_of_dvd hw, ih, hwhole,
        spread_add (n := row + 1), turned_of_dvd hw]

theorem rotateRows_spread (hrow : 0 < row) (hw : w ∣ row) (hn : row ∣ n) :
    Packed.rotateRows row step (spread n x) = spread n (turned x step) := by
  obtain ⟨rows, rfl⟩ := hn
  obtain ⟨row, rfl⟩ := Nat.exists_eq_succ_of_ne_zero (Nat.pos_iff_ne_zero.mp hrow)
  have hlt : step.emod (row + 1 : Nat) < (row + 1 : Nat) := Int.emod_lt_of_pos step (by omega)
  rw [Packed.rotateRows, turnRows_spread hw (by omega), natCast_emod hrow hw]

section Fill

variable [Inhabited α] [NeZero w] {l out : List α}

omit [NeZero w] in
theorem spread_cycle (h : l.length ∣ w) : spread l.length (cycle w l) = l := by
  refine List.ext_getElem length_spread ?_
  intro j _ hj
  have hval : (j : ZMod w).val % l.length = j := by
    rw [ZMod.val_natCast, Nat.mod_mod_of_dvd _ h, Nat.mod_eq_of_lt hj]
  simp only [spread, List.getElem_map, List.getElem_range, cycle, hval]
  rw [List.getD_eq_getElem?_getD, List.getElem?_eq_getElem hj, Option.getD_some]

theorem turned_cycle (h : l.length ∣ w) : turned (cycle w l) l.length = cycle w l := by
  funext i
  have hval : (i + (l.length : ZMod w)).val % l.length = i.val % l.length := by
    rw [ZMod.val_add, ZMod.val_natCast, Nat.mod_mod_of_dvd _ h, Nat.add_mod,
      Nat.mod_mod_of_dvd _ h]
    simp
  rw [turned, cycle, cycle, hval]

theorem flatten_replicate (h : l.length ∣ w) (rounds : Nat) :
    (List.replicate rounds l).flatten = spread (l.length * rounds) (cycle w l) := by
  induction rounds with
  | zero => simp [spread]
  | succ rounds ih =>
    rw [List.replicate_succ, List.flatten_cons, ih, Nat.mul_succ, Nat.add_comm, spread_add,
      spread_cycle h, turned_cycle h]

theorem fill_ok (h : fill l n = .ok out) (hw : l.length ∣ w) : out = spread n (cycle w l) := by
  unfold fill at h
  split at h
  · cases h
  · next hfits =>
    cases h
    simp only [Bool.or_eq_true, decide_eq_true_eq, not_or, not_not] at hfits
    rw [flatten_replicate hw, Nat.mul_div_cancel' (Nat.dvd_of_mod_eq_zero hfits.2)]

omit [Inhabited α] in
theorem length_dvd_of_fill (h : fill l n = .ok out) : l.length ∣ n := by
  unfold fill at h
  split at h
  · cases h
  · next hfits =>
    simp only [Bool.or_eq_true, decide_eq_true_eq, not_or, not_not] at hfits
    exact Nat.dvd_of_mod_eq_zero hfits.2

theorem cycle_spread (x : ZMod w → α) : cycle w (spread w x) = x := by
  funext i
  have hlt := ZMod.val_lt i
  simp [cycle, spread, Nat.mod_eq_of_lt hlt, hlt]

theorem fill_spread (h : fill (spread w x) n = .ok out) : out = spread n x := by
  rw [fill_ok (w := w) h (by rw [length_spread]), cycle_spread]

theorem cycle_replicate (a : α) : cycle w (List.replicate w a) = cycle w [a] := by
  funext i
  have hlt := ZMod.val_lt i
  simp [cycle, Nat.mod_eq_of_lt hlt, hlt, Nat.mod_one]

end Fill

end CipherGraph

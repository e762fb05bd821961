import CipherGraph.Proofs.Analysis
import CipherGraph.Proofs.Cyclic
import CipherGraph.Proofs.Rotations

/-! # Turning rows of slots

A vector fills the slots by going round, and every row holds it a whole number of times. So turning
each row of a ciphertext leads to what the turned vector fills the slots with.
-/

namespace CipherGraph

/-- The number of places that a rotation moves entries to the left. -/
def placesLeft (steps : Nat) (left : Bool) : Int := if left then steps else -steps

theorem placesLeft_not (steps : Nat) (left : Bool) :
    placesLeft steps (!left) = -placesLeft steps left := by
  cases left <;> simp [placesLeft]

theorem rotationStep_modEq {width : Nat} (hpos : 0 < width) (hle : width ≤ 2 ^ 31) (steps : Nat)
    (left : Bool) : rotationStep steps width left ≡ placesLeft steps left [ZMOD width] := by
  have hrest : ((steps % width : Nat) : Int) ≡ steps [ZMOD width] := by
    rw [Int.natCast_mod]
    exact Int.mod_modEq _ _
  rw [Graph.rotationStep_eq hpos hle]
  cases left with
  | true => exact hrest
  | false => exact hrest.neg

section

variable {α : Type} [Inhabited α] {v : List α} {w n : Nat} [NeZero w]

theorem fill_eq_spread (hlen : v.length = w) (hn : w ∣ n) :
    fill v n = .ok (spread n (cycle w v)) := by
  have hv : v ≠ [] := by
    rintro rfl
    exact NeZero.ne w hlen.symm
  unfold fill
  rw [if_neg (by simp [hv, hlen, Nat.mod_eq_zero_of_dvd hn]), flatten_replicate (dvd_of_eq hlen),
    Nat.mul_div_cancel' (hlen ▸ hn)]

theorem getElem?_spread_turned (hlen : v.length = w) (k : Int) {i : Nat} (hi : i < n) :
    (spread n (turned (cycle w v) k))[i]? = v[((i + k) % w).toNat]? := by
  have hval : ((i : ZMod w) + k).val = ((i + k) % w).toNat := by
    rw [← Int.toNat_natCast ((i : ZMod w) + k).val, ← Int.cast_natCast i, ← Int.cast_add,
      ZMod.val_intCast]
  have hlt : ((i + k) % w).toNat < v.length := by
    rw [hlen, ← hval]
    exact ZMod.val_lt _
  simp [spread, turned, cycle, hi, hval, hlt, Nat.mod_eq_of_lt hlt]

end

/-- Turning the rows of the slots that a vector fills gives the slots that the turned vector fills.
Entry `i` is then the entry `i` places further on, or further back, and the turn the other way takes
all entries back to their places. -/
theorem rotateRows_fill {α : Type} {v : List α} {row : Nat} (hv : v ≠ []) (hrow : v.length ∣ row)
    (hle : v.length ≤ 2 ^ 31) (rows steps : Nat) (left : Bool) :
    (∀ kind : SchemeKind, kind.capabilities.rotationKeys = true →
      (Command.schemeOf kind).rotationStep = rotationStep ∧
        ∀ context, (Command.schemeOf kind).rotateRaw context = turnBy) ∧
    ∃ raw slots turned,
      turnBy (rotationStep steps v.length left) v = raw ∧
      (∀ i < v.length, raw[i]? = v[((i + placesLeft steps left) % v.length).toNat]?) ∧
      fill v (row * rows) = .ok slots ∧ fill raw (row * rows) = .ok turned ∧
      (∀ i < row * rows, turned[i]? = v[((i + placesLeft steps left) % v.length).toNat]?) ∧
      Packed.rotateRows row (rotationStep steps v.length left) slots = turned ∧
      (∀ ev c c', ev.context.rowSize = row → c.slots = slots →
        Packed.rotate ev c (rotationStep steps v.length left) = .ok c' →
          c' = { c with slots := turned }) ∧
      turnBy (rotationStep steps v.length !left) raw = v ∧
      Packed.rotateRows row (rotationStep steps v.length !left) turned = slots := by
  refine ⟨fun kind hkeyed => ⟨rotationStep_schemeOf hkeyed, fun context => ?_⟩, ?_⟩
  · cases kind with
    | bitwise => cases hkeyed
    | ckks | bfv => rfl
  · have hpos : 0 < v.length := List.length_pos_iff.mpr hv
    obtain ⟨w, hw⟩ : ∃ w, v.length = w := ⟨_, rfl⟩
    rw [hw] at hrow hle hpos ⊢
    have : NeZero w := ⟨hpos.ne'⟩
    have : Inhabited α := ⟨v.head hv⟩
    have hstep (left : Bool) :
        ((rotationStep steps w left : Int) : ZMod w) = (placesLeft steps left : Int) :=
      (ZMod.intCast_eq_intCast_iff _ _ w).mpr (rotationStep_modEq hpos hle steps left)
    have hturn (y : ZMod w → α) (left : Bool) : turnBy (rotationStep steps w left) (spread w y) =
        spread w (turned y (placesLeft steps left : Int)) := by
      rw [turnBy_spread hpos, hstep]
    have hrows (y : ZMod w → α) (left : Bool) :
        Packed.rotateRows row (rotationStep steps w left) (spread (row * rows) y) =
          spread (row * rows) (turned y (placesLeft steps left : Int)) := by
      cases row with
      | zero => simp [Packed.rotateRows, spread]
      | succ row => rw [rotateRows_spread (Nat.succ_pos row) hrow (Nat.dvd_mul_right ..), hstep]
    have hfill {l : List α} (hl : l.length = w) :
        fill l (row * rows) = .ok (spread (row * rows) (cycle w l)) :=
      fill_eq_spread hl (hrow.mul_right rows)
    obtain ⟨x, hx, hspread⟩ : ∃ x : ZMod w → α, cycle w v = x ∧ spread w x = v := by
      refine ⟨_, rfl, ?_⟩
      rw [← hw]
      exact spread_cycle (Nat.dvd_refl _)
    -- A turn and its opposite lead nowhere.
    have hback :
        turned (turned x (placesLeft steps left : Int)) (placesLeft steps !left : Int) = x := by
      funext i
      simp [turned, placesLeft_not]
    refine ⟨spread w (turned x (placesLeft steps left : Int)), spread (row * rows) x,
      spread (row * rows) (turned x (placesLeft steps left : Int)), ?_, ?_, ?_, ?_, ?_,
      hrows x left, ?_, ?_, ?_⟩
    · rw [← hturn x left, hspread]
    · exact fun i hi => hx ▸ getElem?_spread_turned hw _ hi
    · rw [hfill hw, hx]
    · rw [hfill length_spread, cycle_spread]
    · exact fun i hi => hx ▸ getElem?_spread_turned hw _ hi
    · rintro ev c c' hrowSize hslots hrotate
      unfold Packed.rotate at hrotate
      obtain ⟨_, -, hend⟩ := Except.bind_eq_ok.mp hrotate
      rw [← Except.pure_eq_ok.mp hend, hrowSize, hslots, hrows x left]
    · rw [hturn, hback, hspread]
    · rw [hrows, hback]

/-- Two rows of four slots that hold a vector of two entries twice each, turned right by three. -/
theorem rotateRows_fill_twoRows :
    fill ["a", "b"] (4 * 2) = .ok ["a", "b", "a", "b", "a", "b", "a", "b"] ∧
      rotationStep 3 2 false = -1 ∧ turnBy (-1) ["a", "b"] = ["b", "a"] ∧
      Packed.rotateRows 4 (-1) ["a", "b", "a", "b", "a", "b", "a", "b"] =
        ["b", "a", "b", "a", "b", "a", "b", "a"] ∧
      Packed.rotateRows 4 1 ["b", "a", "b", "a", "b", "a", "b", "a"] =
        ["a", "b", "a", "b", "a", "b", "a", "b"] := by
  have hrow : ["a", "b"].length ∣ 4 := by decide
  obtain ⟨-, raw, slots, turned, hraw, -, hslots, hturned, -, hrows, -, -, hback⟩ :=
    rotateRows_fill (by decide) hrow (by decide) 2 3 false
  have hright : rotationStep 3 ["a", "b"].length false = -1 := by decide
  have hleft : rotationStep 3 ["a", "b"].length (!false) = 1 := by decide
  rw [hright] at hraw hrows
  rw [hleft] at hback
  have hraw' : turnBy (-1) ["a", "b"] = ["b", "a"] := by decide
  cases hraw.symm.trans hraw'
  cases hslots
  cases hturned
  exact ⟨rfl, hright, hraw', hrows, hback⟩

end CipherGraph

import CipherGraph.Scheme.Exact
import Mathlib.Data.ZMod.ValMinAbs

/-! # Residues in slots

The slots of the exact family hold the residues of the plain modulus by their least
representatives, and compute with them as with residues.
-/

namespace CipherGraph.Exact

variable {t : Nat} {r s : ZMod t} {v : Int64}

def ofResidue (r : ZMod t) : UInt64 := UInt64.ofNat r.val

section

variable [NeZero t] (ht : t < UInt64.size)

include ht

theorem toNat_ofResidue (r : ZMod t) : (ofResidue r).toNat = r.val := by
  rw [ofResidue, UInt64.toNat_ofNat']
  exact Nat.mod_eq_of_lt (Nat.lt_trans (ZMod.val_lt r) ht)

theorem addMod_ofResidue : addMod t (ofResidue r) (ofResidue s) = ofResidue (r + s) := by
  rw [addMod, toNat_ofResidue ht, toNat_ofResidue ht, ofResidue, ZMod.val_add]

theorem mulMod_ofResidue : mulMod t (ofResidue r) (ofResidue s) = ofResidue (r * s) := by
  rw [mulMod, toNat_ofResidue ht, toNat_ofResidue ht, ofResidue, ZMod.val_mul]

theorem subMod_ofResidue : subMod t (ofResidue r) (ofResidue s) = ofResidue (r - s) := by
  have hs : s.val < t := ZMod.val_lt s
  have hdiff : (r.val + t - s.val % t) % t = (r - s).val := by
    rw [Nat.mod_eq_of_lt hs, ← ZMod.val_natCast, Nat.cast_sub (by omega)]
    simp
  rw [subMod, toNat_ofResidue ht, toNat_ofResidue ht, hdiff, ofResidue]

theorem subMod_zero_ofResidue : subMod t 0 (ofResidue r) = ofResidue (-r) := by
  have hzero : (0 : UInt64) = ofResidue (0 : ZMod t) := by
    rw [ofResidue, ZMod.val_zero]
    rfl
  rw [hzero, subMod_ofResidue ht, zero_sub]

theorem toInt_centered (r : ZMod t) : (centered t (ofResidue r)).toInt = r.valMinAbs := by
  have hr : r.val < t := ZMod.val_lt r
  have hsize : UInt64.size = 2 ^ 64 := rfl
  rw [centered, toNat_ofResidue ht, ZMod.valMinAbs_def_pos]
  split
  · rw [if_neg (by omega), Int64.toInt_ofInt_of_le (by omega) (by omega)]
  · rw [if_pos (by omega), Int64.toInt_ofNat_of_lt (by omega)]

end

theorem residue_eq [NeZero t] : residue t v = ofResidue (v.toInt : ZMod t) := by
  have hval : ((v.toInt : ZMod t).val : Int) = v.toInt.emod t := ZMod.val_intCast _
  rw [residue, ofResidue, ← hval, Int.toNat_natCast]

end CipherGraph.Exact

import CipherGraph.Proofs.Meaning
import CipherGraph.Scheme.Gates
import CipherGraph.Valuation
import Mathlib.Data.Int.ModEq

/-! # Bits

Gate-level values are residues modulo a power of two, kept in the low bits of bytes. Here are the
residues of bytes, what the gates make of them, and what the nodes of a graph stand for in them.
-/

namespace CipherGraph

variable {b : Nat}

/-- Division rounds down, and a zero divisor sets all bits. -/
def Arithmetic.onBits : Arithmetic → BitVec b → BitVec b → BitVec b
  | .add, r, s => r + s
  | .sub, r, s => r - s
  | .mul, r, s => r * s
  | .div, r, s => if s = 0 then BitVec.allOnes b else r / s

namespace Gates

variable {context : Context} {r s : BitVec b} {x y : UInt8}

def residue (b : Nat) (x : UInt8) : BitVec b := x.toBitVec.setWidth b

def ofResidue (r : BitVec b) : UInt8 := ⟨r.setWidth 8⟩

theorem toNat_residue (x : UInt8) : (residue b x).toNat = x.toNat % 2 ^ b := by
  rw [residue, BitVec.toNat_setWidth, UInt8.toNat_toBitVec]

section

variable (hb : b ≤ 8)

include hb

theorem toNat_ofResidue (r : BitVec b) : (ofResidue r).toNat = r.toNat := by
  rw [ofResidue, UInt8.toNat_ofBitVec, BitVec.toNat_setWidth]
  exact Nat.mod_eq_of_lt (Nat.lt_of_lt_of_le r.isLt (Nat.pow_le_pow_right (by omega) hb))

theorem residue_ofResidue (r : BitVec b) : residue b (ofResidue r) = r := by
  rw [residue, ofResidue, BitVec.setWidth_setWidth_of_le r hb, BitVec.setWidth_eq]

theorem ofResidue_inj : ofResidue r = ofResidue s ↔ r = s := by
  refine ⟨fun h => ?_, congrArg _⟩
  rw [← residue_ofResidue hb r, h, residue_ofResidue hb s]

theorem ofResidue_eq_zero : ofResidue r = 0 ↔ r = 0 := by
  have hzero : ofResidue (0 : BitVec b) = 0 := by
    rw [← UInt8.toNat_inj, toNat_ofResidue hb]
    simp
  rw [← hzero, ofResidue_inj hb]

theorem and_ones (x : UInt8) : x &&& UInt8.ofNat (1 <<< b - 1) = ofResidue (residue b x) := by
  have hpow : 2 ^ b ≤ 2 ^ 8 := Nat.pow_le_pow_right (by omega) hb
  have hpos : 0 < 2 ^ b := Nat.pow_pos (by omega)
  rw [← UInt8.toNat_inj, toNat_ofResidue hb, toNat_residue, UInt8.toNat_and, UInt8.toNat_ofNat',
    Nat.one_shiftLeft, Nat.mod_eq_of_lt (by omega), Nat.and_two_pow_sub_one_eq_mod]

theorem ones_eq : UInt8.ofNat (1 <<< b - 1) = ofResidue (BitVec.allOnes b) := by
  have hpow : 2 ^ b ≤ 2 ^ 8 := Nat.pow_le_pow_right (by omega) hb
  have hpos : 0 < 2 ^ b := Nat.pow_pos (by omega)
  rw [← UInt8.toNat_inj, toNat_ofResidue hb, UInt8.toNat_ofNat', BitVec.toNat_allOnes,
    Nat.one_shiftLeft, Nat.mod_eq_of_lt (by omega)]

theorem residue_neg (x : UInt8) : residue b (-x) = -residue b x := by
  rw [residue, UInt8.toBitVec_neg, BitVec.setWidth_neg_of_le hb, residue]

theorem residue_apply (op : Arithmetic) (r s : BitVec b) :
    residue b (apply (ofResidue (BitVec.allOnes b)) op (ofResidue r) (ofResidue s)) =
      op.onBits r s := by
  have hr := residue_ofResidue hb r
  have hs := residue_ofResidue hb s
  unfold residue at hr hs
  cases op with
  | add =>
    rw [apply, residue, UInt8.toBitVec_add, BitVec.setWidth_add _ _ hb, hr, hs, Arithmetic.onBits]
  | sub =>
    rw [apply, residue, UInt8.toBitVec_sub, BitVec.sub_eq_add_neg, BitVec.setWidth_add _ _ hb,
      BitVec.setWidth_neg_of_le hb, hr, hs, ← BitVec.sub_eq_add_neg, Arithmetic.onBits]
  | mul =>
    rw [apply, residue, UInt8.toBitVec_mul, BitVec.setWidth_mul _ _ hb, hr, hs, Arithmetic.onBits]
  | div =>
    unfold apply divide Arithmetic.onBits
    dsimp only
    simp only [ofResidue_eq_zero hb]
    split
    · exact residue_ofResidue hb _
    · rw [← BitVec.toNat_inj, toNat_residue, UInt8.toNat_div, toNat_ofResidue hb,
        toNat_ofResidue hb, BitVec.toNat_udiv]
      exact Nat.mod_eq_of_lt (Nat.lt_of_le_of_lt (Nat.div_le_self _ _) r.isLt)

theorem residue_shifts {k : Nat} (hk : 0 < k) (hlt : k < b) (r : BitVec b) :
    residue b (ofResidue r <<< UInt8.ofNat k ||| ofResidue r >>> UInt8.ofNat (b - k)) =
      r.rotateLeft k := by
  have hshift {n : Nat} (hn : n < 8) : ((UInt8.ofNat n).toBitVec % 8).toNat = n := by
    rw [BitVec.toNat_umod, UInt8.toNat_toBitVec, UInt8.toNat_ofNat']
    change n % 256 % 8 = n
    omega
  refine BitVec.eq_of_getLsbD_eq fun i hi => ?_
  rw [residue, BitVec.getLsbD_setWidth, UInt8.toBitVec_or, BitVec.getLsbD_or,
    UInt8.toBitVec_shiftLeft, UInt8.toBitVec_shiftRight, BitVec.shiftLeft_eq', hshift (by omega),
    BitVec.ushiftRight_eq', hshift (by omega), BitVec.getLsbD_shiftLeft, BitVec.getLsbD_ushiftRight,
    BitVec.getLsbD_rotateLeft, Nat.mod_eq_of_lt hlt, ofResidue, BitVec.getLsbD_setWidth,
    BitVec.getLsbD_setWidth]
  by_cases hik : i < k
  · have hin : b - k + i < 8 := by omega
    simp [hi, hik, hin]
  · have hout : b ≤ b - k + i := by omega
    have hi8 : i < 8 := by omega
    have hin : i - k < 8 := by omega
    simp [hi, hik, hi8, hin, BitVec.getLsbD_of_ge r _ hout]

theorem rotateBits_eq (hpos : 0 < b) (x : UInt8) (step : Int) :
    rotateBits x step b = ofResidue ((residue b x).rotateLeft (step.emod b).toNat) := by
  have hwidth : max 1 (min b 8) = b := by omega
  unfold rotateBits
  dsimp only
  rw [hwidth, and_ones hb x]
  split
  · next hzero =>
    rw [hzero]
    refine congrArg ofResidue (BitVec.eq_of_getLsbD_eq fun i hi => ?_)
    simp [hi]
  · next hne =>
    have hlt : (step.emod b).toNat < b := by
      have hmod : step.emod b < b := Int.emod_lt_of_pos step (by omega)
      omega
    rw [and_ones hb, residue_shifts hb (by omega) hlt]

end

theorem rotateLeft_sub_mod (hpos : 0 < b) (r : BitVec b) (k : Nat) :
    r.rotateLeft (b - k % b) = r.rotateRight k := by
  have hlt : k % b < b := Nat.mod_lt k hpos
  refine BitVec.eq_of_getLsbD_eq fun i hi => ?_
  rw [BitVec.getLsbD_rotateLeft, BitVec.getLsbD_rotateRight]
  rcases Nat.eq_zero_or_pos (k % b) with hzero | hk
  · simp [hzero, hi]
  · have hmod : (b - k % b) % b = b - k % b := Nat.mod_eq_of_lt (by omega)
    have hback : b - (b - k % b) = k % b := by omega
    rw [hmod, hback]

/-- Steps are counted modulo eight, which is no matter if the width divides eight. -/
theorem rotateLeft_rotationStep (hpos : 0 < b) (hdvd : b ∣ 8) (r : BitVec b) (steps width : Nat)
    (left : Bool) : r.rotateLeft ((rotationStep steps width left).emod b).toNat =
      if left then r.rotateLeft steps else r.rotateRight steps := by
  have hmod : steps % 8 % b = steps % b := Nat.mod_mod_of_dvd steps hdvd
  cases left with
  | true =>
    have hstep : ((rotationStep steps width true).emod b).toNat = steps % b := by
      change (((steps % 8 : Nat) : Int) % (b : Int)).toNat = steps % b
      rw [← Int.natCast_emod, Int.toNat_natCast, hmod]
    rw [hstep, BitVec.rotateLeft_mod_eq_rotateLeft, if_pos rfl]
  | false =>
    have hle : steps % 8 % b ≤ b := (Nat.mod_lt _ hpos).le
    have hneg : -((steps % 8 : Nat) : Int) % (b : Int) = ((b - steps % b : Nat) : Int) % b := by
      rw [← hmod, Nat.cast_sub hle, Int.natCast_emod, Int.sub_emod_left]
      exact (Int.mod_modEq _ _).neg.symm
    have hstep : ((rotationStep steps width false).emod b).toNat = (b - steps % b) % b := by
      change (-((steps % 8 : Nat) : Int) % (b : Int)).toNat = _
      rw [hneg, ← Int.natCast_emod, Int.toNat_natCast]
    rw [hstep, BitVec.rotateLeft_mod_eq_rotateLeft, rotateLeft_sub_mod hpos,
      if_neg Bool.false_ne_true]

end Gates

/-- The residue of a constant; real ones have none. -/
def Constant.residue (b : Nat) : Constant → BitVec b
  | .reals _ => 0
  | .integers l => BitVec.ofInt b (l.headD 0).toInt
  | .byte x => BitVec.ofNat b x.toNat

/-- The residue of an input value; real ones have none. -/
def PlainValue.residue (b : Nat) : PlainValue → BitVec b
  | .real _ | .reals _ => 0
  | .integer v => BitVec.ofInt b v.toInt
  | .integers l => BitVec.ofInt b (l.headD 0).toInt
  | .byte x => BitVec.ofNat b x.toNat

def Valuation.residue (valuation : Valuation) (b : Nat) (name : String) : BitVec b :=
  match valuation.find? name with
  | some value => value.residue b
  | none => 0

section Slots

variable {x : UInt8}

theorem residue_eq_ofNat (x : UInt8) : Gates.residue b x = BitVec.ofNat b x.toNat := by
  rw [← BitVec.toNat_inj, Gates.toNat_residue, BitVec.toNat_ofNat]

theorem residue_byteOf {v : Int64} (h : Slot.byteOf v = .ok x) :
    Gates.residue b x = BitVec.ofInt b v.toInt := by
  unfold Slot.byteOf at h
  split at h
  · next hrange =>
    cases h
    have hcast : ((v.toInt.toNat : Nat) : Int) = v.toInt := Int.toNat_of_nonneg hrange.1
    rw [residue_eq_ofNat, UInt8.toNat_ofNat', Nat.mod_eq_of_lt (by omega), ← BitVec.ofInt_natCast,
      hcast]
  · cases h

theorem residue_bytesOf {l : List Int64} (h : l.mapM Slot.byteOf = .ok [x]) :
    Gates.residue b x = BitVec.ofInt b (l.headD 0).toInt := by
  cases l with
  | nil => cases h
  | cons v l =>
    rw [List.mapM_cons] at h
    obtain ⟨y, hy, h⟩ := Except.bind_eq_ok.mp h
    obtain ⟨_, -, h⟩ := Except.bind_eq_ok.mp h
    cases h
    exact residue_byteOf hy

theorem Slot.ofConstant_residue {c : Constant}
    (h : (Slot.ofConstant c : Except SlotFault (List UInt8)) = .ok [x]) :
    Gates.residue b x = c.residue b := by
  cases c with
  | reals l => cases h
  | integers l => exact residue_bytesOf h
  | byte y =>
    cases h
    exact residue_eq_ofNat x

theorem Slot.ofPlain_residue {p : PlainValue}
    (h : (Slot.ofPlain p : Except SlotFault (List UInt8)) = .ok [x]) :
    Gates.residue b x = p.residue b := by
  cases p with
  | real | reals => cases h
  | integer v =>
    have h : [v].mapM Slot.byteOf = .ok [x] := h
    exact residue_bytesOf h
  | integers l => exact residue_bytesOf h
  | byte y =>
    cases h
    exact residue_eq_ofNat x

end Slots

/-- The meaning of the operations in arithmetic modulo `2 ^ b`. Rotations turn the bits. -/
def bitMeaning (b : Nat) (valuation : Valuation) : Interpretation (BitVec b) where
  input name _ := valuation.residue b name
  constant c := c.residue b
  encode _ _ r := r
  negate d := -d.value
  rotateLeft steps d := d.value.rotateLeft steps
  rotateRight steps d := d.value.rotateRight steps
  clear op x y := op.onBits x.value y.value
  encrypted op r s := op.onBits r s
  aggregate _ _ := 0

theorem bitMeaning_lawful (b : Nat) (valuation : Valuation) : (bitMeaning b valuation).Lawful where
  add_comm := BitVec.add_comm
  mul_comm := BitVec.mul_comm
  sub_eq r s := by
    change r - s = -s + r
    rw [BitVec.sub_eq_add_neg, BitVec.add_comm]

end CipherGraph

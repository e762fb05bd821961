import CipherGraph.Proofs.Contexts
import CipherGraph.Proofs.Reference
import CipherGraph.Proofs.Simulation

/-! # Exactness

An execution of the exact family computes what the nodes of the graph stand for. Every value that
a machine holds fills its slots with a vector of the graph's width, over and over.
-/

namespace CipherGraph

namespace Packed

variable {τ : Type} {f : τ → τ → τ} {level : Nat} {a b c : PackedCiphertext τ}

theorem zipSlots_ok {l l' out : List τ} (h : zipSlots f l l' = .ok out) :
    List.zipWith f l l' = out := by
  unfold zipSlots at h
  split at h
  · exact Except.ok.inj h
  · cases h

theorem zip_ok (h : zip f level a b = .ok c) :
    c = ⟨a.keyId, level, a.scaleBits, List.zipWith f a.slots b.slots⟩ := by
  obtain ⟨_, -, h⟩ := Except.bind_eq_ok.mp h
  obtain ⟨slots, hslots, h⟩ := Except.bind_eq_ok.mp h
  cases h
  rw [zipSlots_ok hslots]

theorem zipPlain_ok {p : PackedPlaintext τ} (h : zipPlain f level a p = .ok c) :
    c = ⟨a.keyId, level, a.scaleBits, List.zipWith f a.slots p.slots⟩ := by
  obtain ⟨slots, hslots, h⟩ := Except.bind_eq_ok.mp h
  cases h
  rw [zipSlots_ok hslots]

end Packed

namespace Exact

variable {w t n : Nat} {x y : ZMod w → ZMod t} {op : Arithmetic} {ev : Evaluator}
  {context : Context} {a b c : Ciphertext} {p : Plaintext}

def slotsOf (n : Nat) (x : ZMod w → ZMod t) : List UInt64 := spread n fun i => ofResidue (x i)

theorem zipWith_slotsOf {f : UInt64 → UInt64 → UInt64} {g : ZMod t → ZMod t → ZMod t}
    (hf : ∀ r s, f (ofResidue r) (ofResidue s) = ofResidue (g r s)) :
    List.zipWith f (slotsOf n x) (slotsOf n y) = slotsOf n fun i => g (x i) (y i) := by
  rw [slotsOf, slotsOf, zipWith_spread]
  simp only [hf]
  rfl

section

variable (hc : context.Packs t)

include hc

theorem modulus_eq : modulus context = t := hc.modulus

theorem slots_of_combine (hev : ev.context = context) (ha : a.slots = slotsOf n x)
    (hb : b.slots = slotsOf n y) (h : combine op ev a b = .ok c) :
    c.keyId = a.keyId ∧ c.slots = slotsOf n fun i => op.onResidues (x i) (y i) := by
  have : NeZero t := hc.neZero
  have ht := hc.modulus_lt
  unfold combine at h
  rw [hev, modulus_eq hc] at h
  cases op with
  | add =>
    rw [Packed.zip_ok h, ha, hb]
    exact ⟨rfl, zipWith_slotsOf fun _ _ => addMod_ofResidue ht⟩
  | sub =>
    rw [Packed.zip_ok h, ha, hb]
    exact ⟨rfl, zipWith_slotsOf fun _ _ => subMod_ofResidue ht⟩
  | mul =>
    obtain ⟨_, -, h⟩ := Except.bind_eq_ok.mp h
    rw [Packed.zip_ok h, ha, hb]
    exact ⟨rfl, zipWith_slotsOf fun _ _ => mulMod_ofResidue ht⟩
  | div => cases h

theorem slots_of_combinePlain (hev : ev.context = context) (ha : a.slots = slotsOf n x)
    (hp : p.slots = slotsOf n y) (h : combinePlain op ev a p = .ok c) :
    c.keyId = a.keyId ∧ c.slots = slotsOf n fun i => op.onResidues (x i) (y i) := by
  have : NeZero t := hc.neZero
  have ht := hc.modulus_lt
  unfold combinePlain at h
  rw [hev, modulus_eq hc] at h
  cases op with
  | add =>
    rw [Packed.zipPlain_ok h, ha, hp]
    exact ⟨rfl, zipWith_slotsOf fun _ _ => addMod_ofResidue ht⟩
  | sub =>
    rw [Packed.zipPlain_ok h, ha, hp]
    exact ⟨rfl, zipWith_slotsOf fun _ _ => subMod_ofResidue ht⟩
  | mul =>
    rw [Packed.zipPlain_ok h, ha, hp]
    exact ⟨rfl, zipWith_slotsOf fun _ _ => mulMod_ofResidue ht⟩
  | div => cases h

/-- A plaintext on the left only enters operations that commute. -/
theorem slots_of_combineLeft (hev : ev.context = context) (hp : p.slots = slotsOf n x)
    (hb : b.slots = slotsOf n y) (h : combineLeft op ev p b = .ok c) :
    c.keyId = b.keyId ∧ c.slots = slotsOf n fun i => op.onResidues (x i) (y i) := by
  cases op with
  | add =>
    have h : combinePlain .add ev b p = .ok c := h
    obtain ⟨hkey, hslots⟩ := slots_of_combinePlain hc hev hb hp h
    exact ⟨hkey, hslots.trans (congrArg _ (funext fun i => add_comm (y i) (x i)))⟩
  | mul =>
    have h : combinePlain .mul ev b p = .ok c := h
    obtain ⟨hkey, hslots⟩ := slots_of_combinePlain hc hev hb hp h
    exact ⟨hkey, hslots.trans (congrArg _ (funext fun i => mul_comm (y i) (x i)))⟩
  | sub | div => cases h

theorem slots_of_negate :
    (slotsOf n x).map (subMod (modulus context) 0) = slotsOf n fun i => -x i := by
  have : NeZero t := hc.neZero
  rw [modulus_eq hc, slotsOf, map_spread]
  simp only [subMod_zero_ofResidue hc.modulus_lt]
  rfl

theorem slots_of_encode {z : ZMod w → Int64} (h : encode context (spread n z) = .ok p) :
    p.slots = slotsOf n fun i => ((z i).toInt : ZMod t) := by
  have : NeZero t := hc.neZero
  obtain ⟨_, -, h⟩ := Except.bind_eq_ok.mp h
  cases h
  change (spread n z).map (residue (modulus context)) = _
  rw [modulus_eq hc, map_spread]
  simp only [residue_eq]
  rfl

theorem decode_slots (hp : p.slots = slotsOf n x) :
    (decode context p).map Int64.toInt = spread n fun i => (x i).valMinAbs := by
  have : NeZero t := hc.neZero
  rw [decode, hp, slotsOf, modulus_eq hc, map_spread, map_spread]
  simp only [toInt_centered hc.modulus_lt]

end

end Exact

/-- What a value over `n` slots stands for. Ciphertexts belong to one key. -/
inductive Represents {w t : Nat} (n : Nat) (key : KeyId) :
    Value Scheme.bfv → Meaning (Lanes w t) → Prop where
  | raw {slots : List Int64} {x : ZMod w → Int64} (hslots : slots = spread w x) :
      Represents n key (.raw slots) ⟨.raw, .clear x⟩
  | plain {p : Exact.Plaintext} {x : ZMod w → ZMod t} (hp : p.slots = Exact.slotsOf n x) :
      Represents n key (.plain p) ⟨.plain, .coded x⟩
  | cipher {c : Exact.Ciphertext} {x : ZMod w → ZMod t} (hkey : c.keyId = key)
      (hc : c.slots = Exact.slotsOf n x) : Represents n key (.cipher c) ⟨.cipher, .coded x⟩

theorem Represents.type_eq {w t n : Nat} {key : KeyId} {x : Value Scheme.bfv}
    {d : Meaning (Lanes w t)} (h : Represents n key x d) : x.type = d.type := by
  cases h <;> rfl

theorem Slot.ofConstant_ok {c : Constant} {slots : List Int64}
    (h : (Slot.ofConstant c : Except SlotFault (List Int64)) = .ok slots) :
    c.exactIntegers = slots := by
  cases c with
  | reals l =>
    rw [Constant.exactIntegers, wholeIntegers, show l.mapM Slot.integerOf = .ok slots from h]
  | integers l => exact Except.ok.inj h
  | byte b => exact Except.ok.inj h

theorem Slot.ofPlain_ok {p : PlainValue} {slots : List Int64}
    (h : (Slot.ofPlain p : Except SlotFault (List Int64)) = .ok slots) :
    p.exactIntegers = slots := by
  cases p with
  | real x =>
    rw [PlainValue.exactIntegers, wholeIntegers, show [x].mapM Slot.integerOf = .ok slots from h]
  | reals l =>
    rw [PlainValue.exactIntegers, wholeIntegers, show l.mapM Slot.integerOf = .ok slots from h]
  | integer n => exact Except.ok.inj h
  | integers l => exact Except.ok.inj h
  | byte b => exact Except.ok.inj h

theorem rotationStep_cast {w : Nat} (hw : 0 < w) (hle : w ≤ 32768) (steps : Nat) :
    ((rotationStep steps w true : Int) : ZMod w) = steps ∧
      ((rotationStep steps w false : Int) : ZMod w) = -(steps : ZMod w) := by
  have hlt : steps % w < w := Nat.mod_lt steps hw
  have hsize : UInt32.size = 4294967296 := rfl
  have hsigned (z : Int) (hz : -32768 < z) (hz' : z < 32768) : signed32 z = z := by
    unfold signed32
    exact Int.bmod_eq_of_le (by omega) (by omega)
  have hmax : max w 1 = w := by omega
  constructor
  · simp only [rotationStep, hmax, if_true]
    rw [hsigned _ (by omega) (by omega), Int.cast_natCast, ZMod.natCast_mod]
  · simp only [rotationStep, hmax, Bool.false_eq_true, if_false]
    rw [hsigned (steps % w : Nat) (by omega) (by omega), hsigned _ (by omega) (by omega),
      Int.cast_neg, Int.cast_natCast, ZMod.natCast_mod]

/-- The result of a primitive that needs no heap, where it succeeds. -/
theorem ok_of_atNode {α : Type} {x : Except EvalError α} {a : α} {node : NodeId} {v v' : Vault}
    (h : Runs (Native.atNode node (liftM x)) v (.ok a) v') : x = .ok a :=
  (runs_liftM.mp (runs_atNode_ok.mp h)).1.symm

namespace Machine

variable {m : Machine Scheme.bfv} {w t scaleBits : Nat} {valuation : Valuation} {node : NodeId}
  {v v' : Vault}

/-- A machine whose slots hold vectors of width `w` over and over. -/
structure Hosts (m : Machine Scheme.bfv) (w t : Nat) : Prop where
  packs : m.context.Packs t
  width : m.graph.width = w
  positive : 0 < w
  divides : w ∣ m.context.slotCount

theorem Hosts.le (hm : m.Hosts w t) : w ≤ 32768 := by
  have hpos : 0 < m.context.slotCount :=
    Nat.lt_of_lt_of_le hm.packs.row_pos (Nat.le_of_dvd ?_ hm.packs.row_dvd)
  · exact Nat.le_trans (Nat.le_of_dvd hpos hm.divides) hm.packs.slotCount_le
  · obtain ⟨k, -, hslots, -⟩ := hm.packs.rows
    rw [hslots]
    exact Nat.pow_pos (by omega)

abbrev Stands (m : Machine Scheme.bfv) (x : Value Scheme.bfv) (d : Meaning (Lanes w t)) : Prop :=
  Represents m.context.slotCount m.keys.keyId x d

variable {x y z : Value Scheme.bfv} {a b : Meaning (Lanes w t)}

theorem Stands.constant (hm : m.Hosts w t) {c : Constant}
    (h : Runs (m.constant node c) v (.ok x) v') :
    m.Stands x ⟨.raw, (exactMeaning w t valuation).constant c⟩ := by
  have : NeZero w := ⟨Nat.ne_of_gt hm.positive⟩
  unfold Machine.constant at h
  split at h
  · cases (runs_throw.mp h).1
  · next slots hslots =>
    obtain ⟨(full : List Int64), _, hfull, h⟩ := runs_bind_ok.mp h
    cases (runs_pure.mp h).1
    cases Slot.ofConstant_ok hslots
    have hfull : fill c.exactIntegers m.graph.width = .ok full := (runs_liftM.mp hfull).1.symm
    rw [hm.width] at hfull
    exact .raw (fill_ok hfull (length_dvd_of_fill hfull))

theorem rawArithmetic_ok {op : Arithmetic} {x y : ZMod w → Int64} {slots : List Int64}
    (h : rawArithmetic (S := Scheme.bfv) node op (spread w x) (spread w y) = .ok slots) :
    slots = spread w fun i => op.onIntegers (x i) (y i) := by
  unfold rawArithmetic at h
  split at h
  · cases h
  · split at h
    · cases h
    · cases h
      change List.zipWith (Slot.combine op) (spread w x) (spread w y) = _
      rw [zipWith_spread]
      cases op <;> rfl

theorem Stands.arithmetic (hm : m.Hosts w t) {op : Arithmetic} (hx : m.Stands x a)
    (hy : m.Stands y b) (h : Runs (m.arithmetic node op x y) v (.ok z) v') :
    m.Stands z ((exactMeaning w t valuation).arithmetic scaleBits op a b) := by
  cases hx with
  | raw hx =>
    cases hy with
    | raw hy =>
      subst hx hy
      obtain ⟨slots, _, hslots, h⟩ := runs_bind_ok.mp h
      cases (runs_pure.mp h).1
      exact .raw (rawArithmetic_ok (runs_liftM.mp hslots).1.symm)
    | plain hp => cases (runs_throw.mp h).1
    | cipher hkey hc => cases (runs_throw.mp h).1
  | @plain p _ hp =>
    cases hy with
    | raw hy => cases (runs_throw.mp h).1
    | plain hq => cases (runs_throw.mp h).1
    | cipher hkey hc =>
      obtain ⟨_, _, -, h⟩ := runs_bind_ok.mp h
      obtain ⟨c, _, hrun, h⟩ := runs_bind_ok.mp h
      cases (runs_pure.mp h).1
      obtain ⟨hkey', hslots⟩ := Exact.slots_of_combineLeft hm.packs rfl hp hc (ok_of_atNode hrun)
      exact .cipher (hkey'.trans hkey) hslots
  | @cipher c _ hkey hc =>
    cases hy with
    | raw hy => cases (runs_throw.mp h).1
    | @plain p _ hp =>
      have h : Runs (do
          m.requireKeys node op
          return .cipher (← (Scheme.bfv.combinePlain op m.evaluator c p).atNode node))
          v (.ok z) v' := by
        unfold Machine.arithmetic at h
        dsimp only at h
        split at h
        · obtain ⟨_, _, h, -⟩ := runs_bind_ok.mp h
          cases (runs_throw.mp h).1
        · exact h
      obtain ⟨_, _, -, h⟩ := runs_bind_ok.mp h
      obtain ⟨c, _, hrun, h⟩ := runs_bind_ok.mp h
      cases (runs_pure.mp h).1
      obtain ⟨hkey', hslots⟩ := Exact.slots_of_combinePlain hm.packs rfl hc hp (ok_of_atNode hrun)
      exact .cipher (hkey'.trans hkey) hslots
    | cipher hkey₂ hc₂ =>
      obtain ⟨_, _, -, h⟩ := runs_bind_ok.mp h
      obtain ⟨c, _, hrun, h⟩ := runs_bind_ok.mp h
      cases (runs_pure.mp h).1
      obtain ⟨hkey', hslots⟩ := Exact.slots_of_combine hm.packs rfl hc hc₂ (ok_of_atNode hrun)
      exact .cipher (hkey'.trans hkey) hslots

theorem Stands.encode (hm : m.Hosts w t) {scale level : Nat} (hx : m.Stands x a)
    (h : Runs (m.encode node x scale level) v (.ok z) v') :
    m.Stands z ⟨.plain, (exactMeaning w t valuation).encode scale level a.value⟩ := by
  have : NeZero w := ⟨Nat.ne_of_gt hm.positive⟩
  cases hx with
  | @raw slots _ hx =>
    obtain ⟨full, _, hfull, h⟩ := runs_bind_ok.mp h
    obtain ⟨p, _, hp, h⟩ := runs_bind_ok.mp h
    cases (runs_pure.mp h).1
    have hfull : fill slots m.context.slotCount = .ok full := (runs_liftM.mp hfull).1.symm
    subst hx
    cases fill_spread hfull
    exact .plain (Exact.slots_of_encode hm.packs (runs_ofEval_ok.mp hp).1)
  | plain hp => cases (runs_throw.mp h).1
  | cipher hkey hc => cases (runs_throw.mp h).1

theorem Stands.negate (hm : m.Hosts w t) (hx : m.Stands x a)
    (h : Runs (m.negate node x) v (.ok z) v') :
    m.Stands z ⟨a.type, (exactMeaning w t valuation).negate a⟩ := by
  cases hx with
  | @raw slots x hx =>
    cases (runs_pure.mp h).1
    subst hx
    exact .raw (map_spread fun v : Int64 => -v)
  | plain hp => cases (runs_throw.mp h).1
  | @cipher c x hkey hc =>
    obtain ⟨_, _, hrun, h⟩ := runs_bind_ok.mp h
    cases (runs_pure.mp h).1
    obtain ⟨r, hr, he⟩ := runs_atNode.mp hrun
    obtain ⟨rfl, -⟩ := runs_pure.mp hr
    cases he
    have hslots : c.slots.map (Exact.subMod (Exact.modulus m.context) 0) =
        Exact.slotsOf m.context.slotCount fun i => -x i := by
      rw [hc]
      exact Exact.slots_of_negate hm.packs
    exact .cipher hkey hslots

theorem Stands.rotate (hm : m.Hosts w t) {steps : Nat} {left : Bool} (hx : m.Stands x a)
    (h : Runs (m.rotate node x steps left) v (.ok z) v') :
    m.Stands z ⟨a.type, a.value.turn (if left then (steps : ZMod w) else -steps)⟩ := by
  have hturn : ((rotationStep steps w left : Int) : ZMod w) =
      if left then (steps : ZMod w) else -steps := by
    cases left with
    | true => exact (rotationStep_cast hm.positive hm.le steps).1
    | false => exact (rotationStep_cast hm.positive hm.le steps).2
  rw [← hturn]
  cases hx with
  | @raw slots x hx =>
    cases (runs_pure.mp h).1
    subst hx
    have hslots : turnBy (rotationStep steps m.graph.width left) (spread w x) =
        spread w (turned x (rotationStep steps w left : Int)) := by
      rw [hm.width]
      exact turnBy_spread hm.positive
    exact .raw hslots
  | plain hp => cases (runs_throw.mp h).1
  | @cipher c x hkey hc =>
    unfold Machine.rotate at h
    dsimp only at h
    split at h
    · obtain ⟨_, _, h, -⟩ := runs_bind_ok.mp h
      cases (runs_throw.mp h).1
    · next hrow =>
      obtain ⟨c', _, hrun, h⟩ := runs_bind_ok.mp h
      cases (runs_pure.mp h).1
      obtain ⟨_, -, hc'⟩ := Except.bind_eq_ok.mp (ok_of_atNode hrun)
      cases hc'
      have hle : w ≤ m.context.rowSize := by
        rw [← hm.width]
        exact Nat.not_lt.mp fun hlt => hrow (decide_eq_true hlt)
      have hrow := hm.packs.dvd_of_le hm.packs.row_dvd hm.divides hle
      have hslots : Packed.rotateRows m.context.rowSize (rotationStep steps m.graph.width left)
          c.slots = Exact.slotsOf m.context.slotCount
            (turned x (rotationStep steps w left : Int)) := by
        rw [hm.width, hc]
        exact rotateRows_spread hm.packs.row_pos hrow hm.packs.row_dvd
      exact .cipher hkey hslots

theorem Stands.unary (hm : m.Hosts w t) {op : Operation} (hx : m.Stands x a)
    (h : Runs (m.unary node op x) v (.ok z) v') :
    ∃ d, (exactMeaning w t valuation).apply scaleBits op [a] = some d ∧ m.Stands z d := by
  unfold Machine.unary at h
  split at h
  · cases (runs_pure.mp h).1
    exact ⟨_, rfl, hx⟩
  · exact ⟨_, rfl, hx.encode hm h⟩
  · exact ⟨_, rfl, hx.negate hm h⟩
  · exact ⟨_, rfl, hx.rotate hm h⟩
  · exact ⟨_, rfl, hx.rotate hm h⟩
  · cases (runs_throw.mp h).1

/-- Every value held stands for what its node denotes. -/
def Realizes (m : Machine Scheme.bfv) (μ : NodeId → Meaning (Lanes w t)) : Prop :=
  ∀ id x, m.values.find? id = some x → m.Stands x (μ id)

end Machine

theorem simulates_exact {keys : Public .bfv} {g : Graph} {w t : Nat} {valuation : Valuation}
    (hp : keys.context.Packs t) (hwidth : g.width = w) (hw : 0 < w)
    (hdvd : w ∣ keys.context.slotCount) (scaleBits : Nat) :
    Simulates (S := Scheme.bfv) keys g (exactMeaning w t valuation) scaleBits (fun _ => True)
      fun _ => Represents keys.context.slotCount keys.keyId where
  grows _ _ := trivial
  stable _ _ h := h
  constant := by
    rintro m _ _ _ _ _ rfl rfl h
    exact Machine.Stands.constant ⟨hp, hwidth, hw, hdvd⟩ h
  arithmetic := by
    rintro m _ _ _ _ _ _ _ _ _ rfl rfl - hx hy h
    exact Machine.Stands.arithmetic ⟨hp, hwidth, hw, hdvd⟩ hx hy h
  unary := by
    rintro m _ _ _ _ _ _ _ rfl rfl - - hx h
    exact Machine.Stands.unary ⟨hp, hwidth, hw, hdvd⟩ hx h

section Ends

variable {context : Context} {key : KeyId} {w t : Nat} {sig : Signature} {valuation : Valuation}
  {v v' : Vault}

theorem Slot.length_ofPlain {p : PlainValue} {slots : List Int64}
    (h : (Slot.ofPlain p : Except SlotFault (List Int64)) = .ok slots) :
    slots.length = p.length?.getD 1 := by
  cases p with
  | real x =>
    have h : [x].mapM Slot.integerOf = .ok slots := h
    exact length_mapM h
  | reals l =>
    have h : l.mapM Slot.integerOf = .ok slots := h
    exact length_mapM h
  | integer n | integers l | byte b =>
    cases h
    rfl

theorem inputSlots_ok [NeZero w] {name : String} {p : PlainValue} {slotCount : Nat}
    {slots : List Int64} (h : inputSlots Scheme.bfv name p w slotCount = .ok slots) :
    slots.length ≤ w ∧ cycle w slots = cycle w p.exactIntegers := by
  unfold inputSlots at h
  split at h
  · cases h
  · next l hl =>
    have hlength := Slot.length_ofPlain hl
    cases Slot.ofPlain_ok hl
    split at h
    · cases h
    · next slot rest hnone hcons =>
      cases h
      rw [hnone, hcons] at hlength
      cases List.length_eq_zero_iff.mp (Nat.succ.inj hlength)
      have hscalar (n : Int64) : cycle w (List.replicate w n) = cycle w [n] := cycle_replicate n
      refine ⟨Nat.le_of_eq List.length_replicate, ?_⟩
      rw [hcons]
      exact hscalar slot
    · next length slots' hsome =>
      split at h
      · cases h
      · next hfits =>
        cases h
        rw [hsome] at hlength
        simp only [Bool.or_eq_true, decide_eq_true_eq, not_or, Nat.not_lt] at hfits
        exact ⟨hlength ▸ hfits.1, rfl⟩

theorem represents_encryptInput (hp : context.Packs t) (hw : 0 < w) (hdvd : w ∣ context.slotCount)
    (hwidth : sig.width = w) {name : String} {p : PlainValue} {noise : Noise}
    {x : Value Scheme.bfv}
    (hfind : valuation.find? name = some p)
    (h : Runs (encryptInput Scheme.bfv context key sig name p noise) v (.ok x) v') :
    ∃ info, sig.inputs.find? name = some info ∧ Represents context.slotCount key x
      ⟨info.type, (exactMeaning w t valuation).input name info.type⟩ := by
  have : NeZero w := ⟨Nat.ne_of_gt hw⟩
  have hlanes : valuation.lanes w name = cycle w p.exactIntegers := by
    rw [Valuation.lanes, hfind]
  obtain ⟨info, (slots : List Int64), hinfo, hslots, hx⟩ := encryptInput_ok h
  refine ⟨info, hinfo, ?_⟩
  rw [hwidth] at hslots hx
  obtain ⟨hle, hcycle⟩ := inputSlots_ok hslots
  -- Encoded, the slots make the residues of the vector.
  have hcoded {full : List Int64} {q : Exact.Plaintext}
      (hfill : fill slots context.slotCount = .ok full)
      (hencode : Exact.encode context full = .ok q) :
      q.slots = Exact.slotsOf (t := t) context.slotCount fun i =>
        (valuation.lanes w name i).toInt := by
    have hvector := fill_ok hfill (hp.dvd_of_le hdvd (length_dvd_of_fill hfill) hle)
    rw [hcycle, ← hlanes] at hvector
    subst hvector
    exact Exact.slots_of_encode hp hencode
  cases hx with
  | @raw full htype hfill =>
    have hvector := fill_ok (α := Int64) hfill (length_dvd_of_fill hfill)
    rw [hcycle, ← hlanes] at hvector
    rw [htype]
    exact .raw hvector
  | plain htype hfill hencode =>
    rw [htype]
    exact .plain (hcoded hfill hencode)
  | cipher htype hfill hencode hencrypt =>
    cases (runs_pure.mp hencrypt).1
    rw [htype]
    exact .cipher rfl (hcoded hfill hencode)

theorem runs_openValue_cipher {sec : Secret .bfv} {c : Exact.Ciphertext}
    (hkey : c.keyId = sec.keyId) :
    Runs (openValue Scheme.bfv sec (.cipher c)) v (.ok (Exact.decode sec.context ⟨0, 0, c.slots⟩))
      v := by
  have hdecrypt : Exact.decrypt sec.key c = .ok ⟨0, 0, c.slots⟩ := by
    have hsame : sameKey sec.key.keyId c.keyId = .ok () := if_pos hkey.symm
    unfold Exact.decrypt Packed.decrypt
    rw [hsame]
    rfl
  have hrun : Runs (Native.alone (liftM (Exact.decrypt sec.key c))) v (.ok ⟨0, 0, c.slots⟩) v := by
    rw [runs_alone_ok, hdecrypt]
    exact runs_liftM.mpr ⟨rfl, rfl⟩
  exact runs_bind_ok.mpr ⟨_, v, hrun, runs_pure.mpr ⟨rfl, rfl⟩⟩

/-- A value opens to the integers that it stands for. -/
theorem Represents.opens {sec : Secret .bfv} {x : Value Scheme.bfv} {d : Meaning (Lanes w t)}
    (hp : sec.context.Packs t) (hle : w ≤ sec.context.slotCount)
    (h : Represents sec.context.slotCount sec.keyId x d) :
    ∃ slots : List Int64, Runs (openValue Scheme.bfv sec x) v (.ok slots) v ∧
      (slots.take w).map Int64.toInt = spread w d.value.lift := by
  cases h with
  | @raw slots x hslots =>
    refine ⟨slots, runs_pure.mpr ⟨rfl, rfl⟩, ?_⟩
    rw [hslots, take_spread (Nat.le_refl w), map_spread]
    rfl
  | @plain p x hslots =>
    refine ⟨Exact.decode sec.context p, runs_pure.mpr ⟨rfl, rfl⟩, ?_⟩
    rw [List.map_take, Exact.decode_slots hp hslots, take_spread hle]
    rfl
  | @cipher c x hkey hslots =>
    refine ⟨Exact.decode sec.context ⟨0, 0, c.slots⟩, runs_openValue_cipher hkey, ?_⟩
    rw [List.map_take, Exact.decode_slots hp hslots, take_spread hle]
    rfl

end Ends

end CipherGraph

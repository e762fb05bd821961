import CipherGraph.Proofs.Bits
import CipherGraph.Proofs.Contexts
import CipherGraph.Proofs.Cyclic
import CipherGraph.Proofs.Simulation

/-! # Exactness of the gates

An execution of the gate-level family computes what the nodes of the graph stand for modulo a power
of two. Encoded and encrypted values have no bits beyond the message; values in the clear may.
-/

namespace CipherGraph

open Gates

variable {b : Nat} {context : Context} {key : KeyId} {ev : Evaluator} {v v' : Vault}
  {x y z : Value Scheme.bitwise} {r s : BitVec b} {a d : Meaning (BitVec b)} {op : Arithmetic}

def Operation.isRotation : Operation → Bool
  | .rotateLeft _ | .rotateRight _ => true
  | _ => false

/-- What a value of one slot stands for in a vault. Ciphertexts belong to one key. -/
inductive Stores (key : KeyId) (v : Vault) : Value Scheme.bitwise → Meaning (BitVec b) → Prop where
  | raw {x : UInt8} {r : BitVec b} (hx : residue b x = r) : Stores key v (.raw [x]) ⟨.raw, r⟩
  | plain {p : Gates.Plaintext} {r : BitVec b} (hp : p.value = ofResidue r) :
      Stores key v (.plain p) ⟨.plain, r⟩
  | cipher {c : Gates.Ciphertext} {cell : NativeCell} {r : BitVec b} (hkey : c.keyId = key)
      (hcell : cell? c v = some cell) (hc : cell.value = ofResidue r) :
      Stores key v (.cipher c) ⟨.cipher, r⟩

theorem Stores.type_eq (h : Stores key v x d) : x.type = d.type := by
  cases h <;> rfl

theorem endures_stores (key : KeyId) :
    Endures Vault.Issued fun v => Stores (b := b) key v where
  grows h hv := h.issued hv
  stable h hv hx := by
    cases hx with
    | raw hx => exact .raw hx
    | plain hp => exact .plain hp
    | cipher hkey hcell hc => exact .cipher hkey (h.cells hv _ _ _ hcell) hc

/-- What is held stays as it is, whatever else becomes of the vault. -/
theorem Stores.keeps (h : Stores key v x d) (hv : v.Issued) {held : List (Nat × Nat)}
    (hkeeps : v.Keeps held v') (hheld : ∀ c ∈ x.cells, c ∈ held) : Stores key v' x d := by
  cases h with
  | raw hx => exact .raw hx
  | plain hp => exact .plain hp
  | cipher hkey hcell hc =>
    exact .cipher hkey (hkeeps.read? hv (hheld _ (List.mem_singleton.mpr rfl)) hcell) hc

section Gates

variable (hc : context.Gated b)

include hc

theorem mask_eq : mask context = ofResidue (BitVec.allOnes b) := by
  rw [mask, hc.width, Nat.min_eq_left hc.le, ones_eq hc.le]

theorem and_mask (x : UInt8) : x &&& mask context = ofResidue (residue b x) := by
  rw [mask, hc.width, Nat.min_eq_left hc.le, and_ones hc.le]

theorem stores_alloc {x : UInt8} {c : Gates.Ciphertext}
    (h : Runs (alloc context key (x &&& mask context)) v (.ok c) v') :
    Stores key v' (.cipher c) ⟨.cipher, residue b x⟩ := by
  obtain ⟨hkey, hcell⟩ := runs_alloc_ok h
  exact .cipher hkey hcell (and_mask hc x)

theorem stores_gate (hev : ev.context = context) {c c' : Gates.Ciphertext} {f : UInt8 → UInt8}
    (hx : Stores key v (.cipher c) ⟨.cipher, r⟩) (h : Runs (gate ev c f) v (.ok c') v') :
    Stores key v' (.cipher c') ⟨.cipher, residue b (f (ofResidue r))⟩ := by
  obtain ⟨_, _, hkeys, h⟩ := runs_bind_ok.mp h
  obtain ⟨u, _, hu, h⟩ := runs_bind_ok.mp h
  cases hx with
  | cipher hkey hcell hr =>
    obtain ⟨⟨cell, hfound, rfl⟩, -⟩ := runs_value_ok.mp hu
    rw [(runs_liftM.mp hkeys).2] at hfound
    cases hcell.symm.trans hfound
    rw [← hr, ← hkey]
    rw [hev] at h
    exact stores_alloc hc h

theorem stores_combine (hev : ev.context = context) {c c' c'' : Gates.Ciphertext}
    (hx : Stores key v (.cipher c) ⟨.cipher, r⟩) (hy : Stores key v (.cipher c') ⟨.cipher, s⟩)
    (h : Runs (Gates.combine op ev c c') v (.ok c'') v') :
    Stores key v' (.cipher c'') ⟨.cipher, op.onBits r s⟩ := by
  obtain ⟨u, v₁, hu, hgate⟩ := runs_bind_ok.mp h
  obtain ⟨_, _, hsame, hu⟩ := runs_bind_ok.mp hu
  obtain ⟨⟨cell, hfound, rfl⟩, rfl⟩ := runs_value_ok.mp hu
  obtain ⟨-, rfl⟩ := runs_liftM.mp hsame
  cases hy with
  | cipher hkey hcell hs =>
    cases hcell.symm.trans hfound
    have hresult := stores_gate hc hev hx hgate
    rw [hev, mask_eq hc, hs, residue_apply hc.le] at hresult
    exact hresult

theorem stores_combinePlain (hev : ev.context = context) {c c' : Gates.Ciphertext}
    {p : Gates.Plaintext} (hx : Stores key v (.cipher c) ⟨.cipher, r⟩) (hp : p.value = ofResidue s)
    (h : Runs (Gates.combinePlain op ev c p) v (.ok c') v') :
    Stores key v' (.cipher c') ⟨.cipher, op.onBits r s⟩ := by
  have hgate : Runs (gate ev c fun x => apply (mask ev.context) op x p.value) v (.ok c') v' := by
    unfold Gates.combinePlain at h
    split at h
    · obtain ⟨_, _, h, -⟩ := runs_bind_ok.mp h
      cases (runs_throw.mp h).1
    · exact h
  have hresult := stores_gate hc hev hx hgate
  rw [hev, mask_eq hc, hp, residue_apply hc.le] at hresult
  exact hresult

theorem stores_combineLeft (hev : ev.context = context) {c c' : Gates.Ciphertext}
    {p : Gates.Plaintext} (hp : p.value = ofResidue r) (hy : Stores key v (.cipher c) ⟨.cipher, s⟩)
    (h : Runs (Gates.combineLeft op ev p c) v (.ok c') v') :
    Stores key v' (.cipher c') ⟨.cipher, op.onBits r s⟩ := by
  have hleft (op : Arithmetic)
      (h : Runs (gate ev c fun x => apply (mask ev.context) op p.value x) v (.ok c') v') :
      Stores key v' (.cipher c') ⟨.cipher, op.onBits r s⟩ := by
    have hresult := stores_gate hc hev hy h
    rw [hev, mask_eq hc, hp, residue_apply hc.le] at hresult
    exact hresult
  cases op with
  | add =>
    have hplain : Runs (Gates.combinePlain .add ev c p) v (.ok c') v' := h
    have hresult := stores_combinePlain hc hev hy hp hplain
    rwa [Arithmetic.onBits, BitVec.add_comm] at hresult
  | mul =>
    have hplain : Runs (Gates.combinePlain .mul ev c p) v (.ok c') v' := h
    have hresult := stores_combinePlain hc hev hy hp hplain
    rwa [Arithmetic.onBits, BitVec.mul_comm] at hresult
  | sub => exact hleft .sub h
  | div => exact hleft .div h

end Gates

theorem fill_single (x : UInt8) : fill [x] 1 = .ok [x] := by
  simp [fill]

theorem single_of_fill {l full : List UInt8} (h : fill l 1 = .ok full) :
    ∃ x, l = [x] ∧ full = [x] := by
  obtain ⟨x, rfl⟩ := List.length_eq_one_iff.mp (Nat.dvd_one.mp (length_dvd_of_fill h))
  exact ⟨x, rfl, (Except.ok.inj ((fill_single x).symm.trans h)).symm⟩

/-- In the clear a quotient is only taken of a divisor that is not zero. -/
theorem slot_combine_eq {x y m : UInt8} (h : op = .div → y ≠ 0) :
    Slot.combine op x y = apply m op x y := by
  cases op with
  | add | sub | mul => rfl
  | div => exact (if_neg (h rfl)).symm

namespace Machine

variable {m : Machine Scheme.bitwise} {node : NodeId} {valuation : Valuation} {scaleBits : Nat}
  (hc : m.context.Gated b)

include hc

theorem stores_constant (hwidth : m.graph.width = 1) {c : Constant}
    (h : Runs (m.constant node c) v (.ok x) v') :
    Stores key v' x ⟨.raw, (bitMeaning b valuation).constant c⟩ := by
  unfold Machine.constant at h
  split at h
  · cases (runs_throw.mp h).1
  · next slots hslots =>
    obtain ⟨(full : List UInt8), _, hfull, h⟩ := runs_bind_ok.mp h
    cases (runs_pure.mp h).1
    have hfull : fill ((slots : List UInt8).map (· &&& mask m.context)) m.graph.width = .ok full :=
      (runs_liftM.mp hfull).1.symm
    rw [hwidth] at hfull
    obtain ⟨y, hy, rfl⟩ := single_of_fill hfull
    obtain ⟨x, rfl, rfl⟩ := List.map_eq_singleton_iff.mp hy
    refine .raw ?_
    rw [and_mask hc, residue_ofResidue hc.le]
    exact Slot.ofConstant_residue hslots

omit hc in
theorem runs_requireKeys_ok {u : Unit} (h : Runs (m.requireKeys node op) v (.ok u) v') :
    v' = v := by
  unfold Machine.requireKeys at h
  split at h
  · obtain ⟨_, _, hkeys, h⟩ := runs_bind_ok.mp h
    exact (runs_pure.mp h).2.trans (runs_ofEval_ok.mp hkeys).2
  · exact (runs_pure.mp h).2

omit hc in
theorem runs_cipher {n : Native Gates.Ciphertext} (h : Runs (do
      m.requireKeys node op
      return Value.cipher (← n.atNode node)) v (.ok z) v') :
    ∃ c : Gates.Ciphertext, z = .cipher c ∧ Runs n v (.ok c) v' := by
  obtain ⟨_, v₁, hkeys, h⟩ := runs_bind_ok.mp h
  obtain ⟨c, v₂, hrun, h⟩ := runs_bind_ok.mp h
  obtain ⟨hz, hv'⟩ := runs_pure.mp h
  cases runs_requireKeys_ok hkeys
  cases hv'
  cases hz
  exact ⟨c, rfl, runs_atNode_ok.mp hrun⟩

theorem stores_rawArithmetic {x y : UInt8} {slots : List UInt8}
    (h : rawArithmetic (S := Scheme.bitwise) node op [x &&& mask m.context]
      [y &&& mask m.context] = .ok slots) :
    ∃ z, slots = [z] ∧ residue b z = op.onBits (residue b x) (residue b y) := by
  unfold rawArithmetic at h
  split at h
  · cases h
  · split at h
    · cases h
    · next hzero =>
      cases h
      refine ⟨_, rfl, ?_⟩
      have hne (hop : op = .div) : ofResidue (residue b y) ≠ 0 := by
        intro hy
        have hany : ([y &&& mask m.context] : List UInt8).any Slot.isZero = true := by
          rw [and_mask hc y, hy]
          rfl
        exact hzero (Bool.and_eq_true_iff.mpr ⟨decide_eq_true hop, hany⟩)
      change residue b (Slot.combine op (x &&& mask m.context) (y &&& mask m.context) : UInt8) = _
      rw [and_mask hc x, and_mask hc y, slot_combine_eq hne, residue_apply hc.le]

theorem stores_arithmetic (hx : Stores m.keys.keyId v x a) (hy : Stores m.keys.keyId v y d)
    (h : Runs (m.arithmetic node op x y) v (.ok z) v') :
    Stores m.keys.keyId v' z ((bitMeaning b valuation).arithmetic scaleBits op a d) := by
  cases hx with
  | @raw x _ hx =>
    cases hy with
    | @raw y _ hy =>
      obtain ⟨slots, _, hslots, h⟩ := runs_bind_ok.mp h
      cases (runs_pure.mp h).1
      obtain ⟨z, rfl, hz⟩ := stores_rawArithmetic hc (runs_liftM.mp hslots).1.symm
      refine .raw ?_
      change residue b (z &&& mask m.context) = op.onBits _ _
      rw [and_mask hc, residue_ofResidue hc.le, hz, hx, hy]
    | plain hp => cases (runs_throw.mp h).1
    | cipher hkey hcell hs => cases (runs_throw.mp h).1
  | @plain p _ hp =>
    cases hy with
    | raw hy => cases (runs_throw.mp h).1
    | plain hq => cases (runs_throw.mp h).1
    | cipher hkey hcell hs =>
      obtain ⟨c, rfl, hrun⟩ := runs_cipher h
      exact stores_combineLeft hc rfl hp (.cipher hkey hcell hs) hrun
  | @cipher c _ _ hkey hcell hr =>
    have hx : Stores m.keys.keyId v (.cipher c) ⟨.cipher, _⟩ := .cipher hkey hcell hr
    cases hy with
    | raw hy => cases (runs_throw.mp h).1
    | @plain p _ hp =>
      unfold Machine.arithmetic at h
      dsimp only at h
      split at h
      · obtain ⟨_, _, h, -⟩ := runs_bind_ok.mp h
        cases (runs_throw.mp h).1
      · obtain ⟨c', rfl, hrun⟩ := runs_cipher h
        exact stores_combinePlain hc rfl hx hp hrun
    | cipher hkey' hcell' hs =>
      obtain ⟨c', rfl, hrun⟩ := runs_cipher h
      exact stores_combine hc rfl hx (.cipher hkey' hcell' hs) hrun

theorem stores_encode {scale level : Nat} (hx : Stores key v x a)
    (h : Runs (m.encode node x scale level) v (.ok z) v') :
    Stores key v' z ⟨.plain, (bitMeaning b valuation).encode scale level a.value⟩ := by
  cases hx with
  | @raw x _ hx =>
    obtain ⟨full, _, hfull, h⟩ := runs_bind_ok.mp h
    obtain ⟨p, _, hp, h⟩ := runs_bind_ok.mp h
    cases (runs_pure.mp h).1
    have hfull : fill [x] m.context.slotCount = .ok full := (runs_liftM.mp hfull).1.symm
    rw [hc.slotCount_eq, fill_single] at hfull
    cases hfull
    have hp : Gates.encode m.context [x] = .ok p := (runs_ofEval_ok.mp hp).1
    cases hp
    refine .plain ?_
    rw [and_mask hc, hx]
    rfl
  | plain hp => cases (runs_throw.mp h).1
  | cipher hkey hcell hr => cases (runs_throw.mp h).1

theorem stores_negate (hx : Stores key v x a) (h : Runs (m.negate node x) v (.ok z) v') :
    Stores key v' z ⟨a.type, (bitMeaning b valuation).negate a⟩ := by
  cases hx with
  | @raw x _ hx =>
    cases (runs_pure.mp h).1
    refine .raw ?_
    rw [← hx]
    change residue b (-x &&& mask m.context) = _
    rw [and_mask hc, residue_ofResidue hc.le, residue_neg hc.le]
    rfl
  | plain hp => cases (runs_throw.mp h).1
  | @cipher c _ r hkey hcell hr =>
    obtain ⟨c', _, hrun, h⟩ := runs_bind_ok.mp h
    obtain ⟨hz, rfl⟩ := runs_pure.mp h
    cases hz
    have hresult := stores_gate hc rfl (.cipher hkey hcell hr) (runs_atNode_ok.mp hrun)
    rwa [residue_neg hc.le, residue_ofResidue hc.le] at hresult

/-- Rotating turns the residue, as long as the steps are counted right. -/
theorem stores_rotate {steps : Nat} {left : Bool} (hdvd : b ∣ 8) (hx : Stores key v x a)
    (h : Runs (m.rotate node x steps left) v (.ok z) v') :
    Stores key v' z
      ⟨a.type, if left then a.value.rotateLeft steps else a.value.rotateRight steps⟩ := by
  have hturn (x : UInt8) (width : Nat) :
      residue b (rotateBits x (Gates.rotationStep steps width left) m.context.params.bitWidth) =
        if left then (residue b x).rotateLeft steps else (residue b x).rotateRight steps := by
    rw [hc.width, rotateBits_eq hc.le hc.pos, residue_ofResidue hc.le,
      rotateLeft_rotationStep hc.pos hdvd]
  cases hx with
  | @raw x _ hx =>
    cases (runs_pure.mp h).1
    rw [← hx]
    exact .raw (hturn x m.graph.width)
  | plain hp => cases (runs_throw.mp h).1
  | @cipher c _ r hkey hcell hr =>
    obtain ⟨c', _, hrun, h⟩ := runs_bind_ok.mp h
    obtain ⟨hz, rfl⟩ := runs_pure.mp h
    cases hz
    have hresult := stores_gate hc rfl (.cipher hkey hcell hr) (runs_atNode_ok.mp hrun)
    have hvalue := hturn (ofResidue r) m.graph.width
    rw [residue_ofResidue hc.le] at hvalue
    exact hvalue ▸ hresult

theorem stores_unary {op : Operation} (hdvd : op.isRotation = true → b ∣ 8) (hx : Stores key v x a)
    (h : Runs (m.unary node op x) v (.ok z) v') :
    ∃ d, (bitMeaning b valuation).apply scaleBits op [a] = some d ∧ Stores key v' z d := by
  unfold Machine.unary at h
  split at h
  · obtain ⟨hz, rfl⟩ := runs_pure.mp h
    cases hz
    exact ⟨_, rfl, hx⟩
  · exact ⟨_, rfl, stores_encode hc hx h⟩
  · exact ⟨_, rfl, stores_negate hc hx h⟩
  · exact ⟨_, rfl, stores_rotate hc (hdvd rfl) hx h⟩
  · exact ⟨_, rfl, stores_rotate hc (hdvd rfl) hx h⟩
  · cases (runs_throw.mp h).1

end Machine

/-- The machines of a graph of width one, with rotations only by widths that divide eight. -/
theorem simulates_gates {keys : Public .bitwise} {g : Graph} (hc : keys.context.Gated b)
    (hwidth : g.width = 1) (hdvd : ∀ n ∈ g.nodes, n.op.isRotation = true → b ∣ 8)
    (valuation : Valuation) (scaleBits : Nat) :
    Simulates (S := Scheme.bitwise) keys g (bitMeaning b valuation) scaleBits Vault.Issued
      (Stores keys.keyId) where
  toEndures := endures_stores keys.keyId
  constant := by
    rintro m _ _ _ _ _ rfl rfl h
    exact Machine.stores_constant hc hwidth h
  arithmetic := by
    rintro m _ _ _ _ _ _ _ _ _ rfl rfl - hx hy h
    exact Machine.stores_arithmetic hc hx hy h
  unary := by
    rintro m _ _ _ _ _ _ _ rfl rfl hn - hx h
    exact Machine.stores_unary hc (hdvd _ hn) hx h

section Ends

variable {sig : Signature} {valuation : Valuation}

theorem single_of_scalar {p : PlainValue} {l : List UInt8} (hp : p.length? = none)
    (h : (Slot.ofPlain p : Except SlotFault (List UInt8)) = .ok l) : ∃ x, l = [x] := by
  refine List.length_eq_one_iff.mp ?_
  cases p with
  | real | reals => cases h
  | integer v =>
    have h : [v].mapM Slot.byteOf = .ok l := h
    exact length_mapM h
  | integers l => cases hp
  | byte x =>
    cases h
    rfl

theorem single_of_inputSlots {name : String} {p : PlainValue} {slots full : List UInt8}
    (h : inputSlots Scheme.bitwise name p 1 1 = .ok slots) (hfill : fill slots 1 = .ok full) :
    ∃ x, full = [x] ∧ residue b x = p.residue b := by
  obtain ⟨x, rfl, rfl⟩ := single_of_fill hfill
  refine ⟨x, rfl, Slot.ofPlain_residue ?_⟩
  unfold inputSlots at h
  split at h
  · cases h
  · next l hl =>
    split at h
    · cases h
    · next slot rest hnone =>
      obtain ⟨y, hy⟩ := single_of_scalar hnone hl
      cases hy
      cases h
      exact hl
    · next length slots hsome =>
      split at h
      · cases h
      · cases h
        exact hl

theorem width_of_encrypt (hc : context.Gated b) {noise : String → Noise}
    {inputs : SchemeValuation Scheme.bitwise}
    (h : Runs (encrypt Scheme.bitwise context key valuation sig noise) v (.ok inputs) v') :
    sig.width = 1 := by
  unfold encrypt at h
  dsimp only at h
  split at h
  · obtain ⟨_, _, h, -⟩ := runs_bind_ok.mp h
    cases (runs_throw.mp h).1
  · next hfits =>
    rw [hc.slotCount_eq] at hfits
    simp only [Bool.or_eq_true, decide_eq_true_eq, not_or] at hfits
    omega

theorem stores_encryptInput (hc : context.Gated b) (hwidth : sig.width = 1) {name : String}
    {p : PlainValue} {noise : Noise} (hfind : valuation.find? name = some p)
    (h : Runs (encryptInput Scheme.bitwise context key sig name p noise) v (.ok x) v') :
    ∃ info, sig.inputs.find? name = some info ∧
      Stores key v' x ⟨info.type, (bitMeaning b valuation).input name info.type⟩ := by
  have hresidue : (bitMeaning b valuation).input name = fun _ => p.residue b := by
    funext type
    change valuation.residue b name = p.residue b
    rw [Valuation.residue, hfind]
  obtain ⟨info, (slots : List UInt8), hinfo, hslots, hx⟩ := encryptInput_ok h
  rw [hwidth, hc.slotCount_eq] at hslots
  rw [hwidth] at hx
  refine ⟨info, hinfo, ?_⟩
  rw [hresidue]
  -- Encoded, the slot keeps the residue and nothing else.
  have hcoded {full : List UInt8} {q : Gates.Plaintext}
      (hfill : fill slots context.slotCount = .ok full)
      (hencode : Gates.encode context full = .ok q) :
      q.value = ofResidue (p.residue b) := by
    rw [hc.slotCount_eq] at hfill
    obtain ⟨x, rfl, hx⟩ := single_of_inputSlots hslots hfill
    cases hencode
    rw [and_mask hc, hx]
  cases hx with
  | @raw full htype hfill =>
    obtain ⟨x, rfl, hx⟩ := single_of_inputSlots hslots hfill
    rw [htype]
    exact .raw hx
  | plain htype hfill hencode =>
    rw [htype]
    exact .plain (hcoded hfill hencode)
  | @cipher full q c htype hfill hencode hencrypt =>
    have hstored := stores_alloc hc hencrypt
    rw [hcoded hfill hencode, residue_ofResidue hc.le] at hstored
    rw [htype]
    exact hstored

theorem runs_decrypt {secret : SecretKey} {c : Gates.Ciphertext} {cell : NativeCell}
    (hkey : secret.keyId = c.keyId) (hcell : cell? c v = some cell) :
    Runs (Gates.decrypt secret c) v (.ok ⟨cell.value⟩) v := by
  have hsame : sameKey secret.keyId c.keyId = .ok () := if_pos hkey
  have hvalue : Runs (value c) v (.ok cell.value) v := runs_value_ok.mpr ⟨⟨cell, hcell, rfl⟩, rfl⟩
  unfold Gates.decrypt
  rw [hsame, runs_bind_of_ok (runs_liftM.mpr ⟨rfl, rfl⟩), runs_bind_of_ok hvalue]
  exact runs_pure.mpr ⟨rfl, rfl⟩

/-- A value opens to a byte with the residue that it stands for, and nothing more if it is coded. -/
theorem Stores.opens {sec : Secret .bitwise} (hb : b ≤ 8) (h : Stores sec.keyId v x d) :
    ∃ y : UInt8, Runs (openValue Scheme.bitwise sec x) v (.ok [y]) v ∧
      y.toNat % 2 ^ b = d.value.toNat ∧ (d.type ≠ .raw → y.toNat = d.value.toNat) := by
  have hvalue (r : BitVec b) : (ofResidue r).toNat % 2 ^ b = r.toNat := by
    rw [toNat_ofResidue hb, Nat.mod_eq_of_lt r.isLt]
  cases h with
  | @raw x r hx =>
    refine ⟨x, runs_pure.mpr ⟨rfl, rfl⟩, ?_, fun hraw => absurd rfl hraw⟩
    rw [← hx, toNat_residue]
  | @plain p r hp =>
    refine ⟨p.value, runs_pure.mpr ⟨rfl, rfl⟩, ?_, fun _ => ?_⟩
    · rw [hp, hvalue]
    · rw [hp, toNat_ofResidue hb]
  | @cipher c cell r hkey hcell hr =>
    have hdecrypt := runs_alone_ok.mpr (runs_decrypt hkey.symm hcell)
    refine ⟨cell.value, runs_bind_ok.mpr ⟨⟨cell.value⟩, v, hdecrypt, runs_pure.mpr ⟨rfl, rfl⟩⟩,
      ?_, fun _ => ?_⟩
    · rw [hr, hvalue]
    · rw [hr, toNat_ofResidue hb]

end Ends

end CipherGraph

import CipherGraph.Proofs.GateExactness
import CipherGraph.Proofs.ValueBlobs

/-! # Turns of bits

The steps of a rotation are taken modulo eight before the bits are turned, whatever the width of the
message. Rotations compose by adding what is left of their steps, and one to the right undoes one to
the left. That they turn by the steps they are given holds for widths that divide eight, and in the
other widths only if what was taken off is a whole number of turns.
-/

namespace CipherGraph

open Gates

variable {b : Nat}

namespace Gates

/-- Turns the bits to the left, by a negative number of places to the right. -/
def spin (i : Int) (r : BitVec b) : BitVec b := r.rotateLeft (i.emod b).toNat

theorem spin_natCast (k : Nat) (r : BitVec b) : spin k r = r.rotateLeft k := by
  change r.rotateLeft ((k : Int) % (b : Int)).toNat = _
  rw [← Int.natCast_emod, Int.toNat_natCast, BitVec.rotateLeft_mod_eq_rotateLeft]

section

variable (hpos : 0 < b)

include hpos

theorem getLsbD_spin (i : Int) (r : BitVec b) {j : Nat} (hj : j < b) :
    (spin i r).getLsbD j = r.getLsbD ((j - i) % b).toNat := by
  obtain ⟨k, hk⟩ := Int.eq_ofNat_of_zero_le (Int.emod_nonneg i (by omega : (b : Int) ≠ 0))
  have hlt : k < b := by
    have := Int.emod_lt_of_pos i (by omega : (0 : Int) < b)
    omega
  have hdiff : ((j : Int) - i) % b = ((j : Int) - k) % b := by
    rw [← hk]
    exact (Int.mod_modEq i b).symm.sub_left _
  have hplaces : i.emod b = k := hk
  rw [spin, hplaces, Int.toNat_natCast, BitVec.getLsbD_rotateLeft, Nat.mod_eq_of_lt hlt, hdiff]
  by_cases hjk : j < k
  · have hwrap : ((j : Int) - k) % b = (b - k + j : Nat) := by
      rw [← Int.add_emod_right]
      rw [Int.emod_eq_of_lt] <;> omega
    rw [hwrap, Int.toNat_natCast]
    simp [hjk]
  · have hplain : ((j : Int) - k) % b = (j - k : Nat) := by
      rw [Int.emod_eq_of_lt] <;> omega
    simp [hjk, hplain, hj]

theorem spin_spin (i j : Int) (r : BitVec b) : spin j (spin i r) = spin (i + j) r := by
  apply BitVec.eq_of_getLsbD_eq
  intro p hp
  have hlt := Int.emod_lt_of_pos (p - j) (by omega : (0 : Int) < b)
  have hnonneg := Int.emod_nonneg (p - j) (by omega : (b : Int) ≠ 0)
  have hplace : ((p - j) % b - i) % b = ((p : Int) - (i + j)) % b := by
    rw [add_comm, ← sub_sub]
    exact (Int.mod_modEq _ _).sub_right i
  rw [getLsbD_spin hpos _ _ hp, getLsbD_spin hpos _ _ (by omega), getLsbD_spin hpos _ _ hp,
    Int.toNat_of_nonneg hnonneg, hplace]

theorem spin_zero (r : BitVec b) : spin 0 r = r := by
  apply BitVec.eq_of_getLsbD_eq
  intro p hp
  have hplace : ((p : Int) - 0) % b = p := Int.emod_eq_of_lt (by omega) (by omega)
  rw [getLsbD_spin hpos _ _ hp, hplace, Int.toNat_natCast]

theorem spin_eq_iff {i j : Int} : (∀ r : BitVec b, spin i r = spin j r) ↔ (b : Int) ∣ i - j := by
  rw [← Int.modEq_iff_dvd]
  constructor
  · intro h
    -- The lowest bit shows where it goes.
    obtain ⟨p, hp⟩ := Int.eq_ofNat_of_zero_le (Int.emod_nonneg i (by omega : (b : Int) ≠ 0))
    have hlt : p < b := by
      have := Int.emod_lt_of_pos i (by omega : (0 : Int) < b)
      omega
    have hi : (b : Int) ∣ p - i := by
      rw [← Int.ofNat_eq_natCast, ← hp]
      exact (Int.mod_modEq i b).symm.dvd
    have hbit := congrArg (·.getLsbD p) (h 1)
    have hj : ((p : Int) - j) % b ≤ 0 := by
      simpa [getLsbD_spin hpos _ _ hlt, Int.emod_eq_zero_of_dvd hi, hpos] using hbit
    have hnonneg := Int.emod_nonneg (p - j) (by omega : (b : Int) ≠ 0)
    have hdvd : (b : Int) ∣ p - j := Int.dvd_of_emod_eq_zero (by omega)
    exact (Int.modEq_iff_dvd.mpr hdvd).trans (Int.modEq_iff_dvd.mpr hi).symm
  · intro h r
    have hplaces : i.emod b = j.emod b := h.symm
    rw [spin, spin, hplaces]

end

theorem rotateBits_eq_spin (hpos : 0 < b) (hb : b ≤ 8) (x : UInt8) (i : Int) :
    rotateBits x i b = ofResidue (spin i (residue b x)) :=
  rotateBits_eq hb hpos x i

end Gates

/-- The places by which a rotation is to turn, to the right if they are negative. -/
def Operation.steps : Operation → Int
  | .rotateLeft steps => steps
  | .rotateRight steps => -steps
  | _ => 0

/-- What is left of them modulo eight. -/
def Operation.countedSteps : Operation → Int
  | .rotateLeft steps => (steps % 8 : Nat)
  | .rotateRight steps => -(steps % 8 : Nat)
  | _ => 0

/-- The operations at these nodes, one after the other. -/
def Machine.successively {S : Scheme} (m : Machine S) (ops : List (NodeId × Operation))
    (x : Value S) : Exec (Value S) :=
  ops.foldlM (fun x n => m.unary n.1 n.2 x) x

namespace Machine

variable {m : Machine Scheme.bitwise} {node : NodeId} {op : Operation} {type : ValueClass}
  {ops : List (NodeId × Operation)} {v v' : Vault} {x y : Value Scheme.bitwise} {l : List UInt8}
  {f g : BitVec b → BitVec b}

/-- What rotations turn, and the bytes it is made of: slots in the clear, or the cell of a
ciphertext, in a vault with a heap for the next one. -/
inductive Carries (m : Machine Scheme.bitwise) (v : Vault) :
    Value Scheme.bitwise → ValueClass → List UInt8 → Prop where
  | raw (slots : List UInt8) : Carries m v (.raw slots) .raw slots
  | cipher {c : Gates.Ciphertext} {cell : NativeCell} (hv : m.context.Hosted v)
      (hcell : cell? c v = some cell) : Carries m v (.cipher c) .cipher [cell.value]

/-- The operations succeed on every value of the class, and give one of that class with `f` applied
to the bits of the message and no other bits. -/
def Acts (m : Machine Scheme.bitwise) (type : ValueClass) (ops : List (NodeId × Operation))
    (f : BitVec b → BitVec b) : Prop :=
  ∀ v x l, m.Carries v x type l → ∃ y v', Runs (m.successively ops x) v (.ok y) v' ∧
    m.Carries v' y type (l.map fun u => ofResidue (f (residue b u)))

section Steps

variable (hc : m.context.Gated b) (hkeys : m.keys.evaluationKeys.isSome)

include hc hkeys

theorem runs_gate_hosted {c : Gates.Ciphertext} {cell : NativeCell} (hv : m.context.Hosted v)
    (hcell : cell? c v = some cell) (f : UInt8 → UInt8) :
    ∃ c' v', Runs (gate m.evaluator c f) v (.ok c') v' ∧ m.context.Hosted v' ∧
      cell? c' v' = some ⟨c.keyId, ofResidue (residue b (f cell.value))⟩ := by
  obtain ⟨keys, hkeys⟩ := Option.isSome_iff_exists.mp hkeys
  have hrequired : m.evaluator.requireKeys = .ok keys := by
    rw [Evaluator.requireKeys, evaluator, hkeys]
  obtain ⟨c', v', hrun, -, hv', -⟩ :=
    runs_alloc_hosted hc.scheme hv c.keyId (f cell.value &&& mask m.context)
  have hcell' := (runs_alloc_ok hrun).2
  rw [and_mask hc] at hcell'
  refine ⟨c', v', ?_, hv', hcell'⟩
  have hvalue : Runs (Gates.value c) v (.ok cell.value) v :=
    Gates.runs_value_ok.mpr ⟨⟨cell, hcell, rfl⟩, rfl⟩
  unfold gate
  rw [hrequired, runs_bind_of_ok (runs_liftM.mpr ⟨rfl, rfl⟩), runs_bind_of_ok hvalue]
  exact hrun

theorem runs_rotate_carries (hx : m.Carries v x type l) (steps : Nat) (left : Bool) :
    ∃ y v', Runs (m.rotate node x steps left) v (.ok y) v' ∧ m.Carries v' y type
      (l.map fun u =>
        ofResidue (spin (Gates.rotationStep steps m.graph.width left) (residue b u))) := by
  have hturn (u : UInt8) (i : Int) :
      rotateBits u i m.context.params.bitWidth = ofResidue (spin i (residue b u)) := by
    rw [hc.width, rotateBits_eq_spin hc.pos hc.le]
  cases hx with
  | raw slots =>
    simp only [← hturn]
    exact ⟨_, v, runs_pure.mpr ⟨rfl, rfl⟩, .raw _⟩
  | @cipher c cell hv hcell =>
    obtain ⟨c', v', hrun, hv', hcell'⟩ := runs_gate_hosted hc hkeys hv hcell fun u =>
      rotateBits u (Gates.rotationStep steps m.graph.width left) m.context.params.bitWidth
    rw [hturn, residue_ofResidue hc.le] at hcell'
    refine ⟨.cipher c', v', ?_, .cipher hv' hcell'⟩
    exact runs_bind_ok.mpr ⟨c', v', runs_atNode_ok.mpr hrun, runs_pure.mpr ⟨rfl, rfl⟩⟩

theorem runs_rotation (node : NodeId) (hop : op.isRotation = true) (hx : m.Carries v x type l) :
    ∃ y v', Runs (m.unary node op x) v (.ok y) v' ∧
      m.Carries v' y type (l.map fun u => ofResidue (spin op.countedSteps (residue b u))) := by
  cases op with
  | rotateLeft steps => exact runs_rotate_carries hc hkeys hx steps true
  | rotateRight steps => exact runs_rotate_carries hc hkeys hx steps false
  | _ => cases hop

theorem runs_rotations (hops : ∀ n ∈ ops, n.2.isRotation = true) (i : Int)
    (hx : m.Carries v x type (l.map fun u => ofResidue (spin i (residue b u)))) :
    ∃ y v', Runs (m.successively ops x) v (.ok y) v' ∧ m.Carries v' y type
      (l.map fun u => ofResidue
        (spin (i + (ops.map (·.2.countedSteps)).sum) (residue b u))) := by
  induction ops generalizing i x v with
  | nil =>
    rw [List.map_nil, List.sum_nil, add_zero]
    exact ⟨x, v, runs_pure.mpr ⟨rfl, rfl⟩, hx⟩
  | cons n ops ih =>
    obtain ⟨hn, hops⟩ := List.forall_mem_cons.mp hops
    obtain ⟨y, v₁, hrun, hy⟩ := runs_rotation hc hkeys n.1 hn hx
    simp only [List.map_map, Function.comp_def, residue_ofResidue hc.le,
      spin_spin hc.pos] at hy
    obtain ⟨z, v', hrest, hz⟩ := ih hops _ hy
    rw [List.map_cons, List.sum_cons, ← add_assoc]
    refine ⟨z, v', ?_, hz⟩
    rw [successively, List.foldlM_cons, runs_bind_of_ok hrun]
    exact hrest

theorem acts_rotations (hne : ops ≠ []) (hops : ∀ n ∈ ops, n.2.isRotation = true) :
    m.Acts type ops (spin (b := b) (ops.map (·.2.countedSteps)).sum) := by
  obtain ⟨n, rest, rfl⟩ := List.exists_cons_of_ne_nil hne
  obtain ⟨hn, hrest⟩ := List.forall_mem_cons.mp hops
  intro v x l hx
  obtain ⟨y, v₁, hrun, hy⟩ := runs_rotation hc hkeys n.1 hn hx
  obtain ⟨z, v', hruns, hz⟩ := runs_rotations hc hkeys hrest _ hy
  rw [List.map_cons, List.sum_cons]
  refine ⟨z, v', ?_, hz⟩
  rw [successively, List.foldlM_cons, runs_bind_of_ok hrun]
  exact hruns

end Steps

theorem exists_carries (m : Machine Scheme.bitwise) (htype : type = .raw ∨ type = .cipher)
    (u : UInt8) : ∃ v x, m.Carries v x type [u] := by
  rcases htype with rfl | rfl
  · exact ⟨.empty, .raw [u], .raw [u]⟩
  · let heap : NativeHeap := ⟨1, [(0, ⟨m.keys.keyId, u⟩)], 0, 0⟩
    let v : Vault := ⟨List.replicate (m.context.number + 1) heap⟩
    have hheap : v.heap? m.context.number = some heap := by
      simp [v, Vault.heap?]
    have hv : m.context.Hosted v := by
      constructor
      · intro h hh c hmem
        cases List.eq_of_mem_replicate hh
        cases List.mem_singleton.mp hmem
        exact Nat.zero_lt_one
      · exact fun _ => ⟨heap, hheap⟩
    have hcell : cell? ⟨m.context.number, 0, m.keys.keyId⟩ v = some ⟨m.keys.keyId, u⟩ := by
      rw [cell?, Vault.read?_of_heap? hheap]
      rfl
    exact ⟨v, .cipher ⟨m.context.number, 0, m.keys.keyId⟩, .cipher hv hcell⟩

theorem Carries.unique {l' : List UInt8} (h : m.Carries v x type l) (h' : m.Carries v x type l') :
    l = l' := by
  cases h with
  | raw slots =>
    cases h'
    rfl
  | cipher hv hcell =>
    cases h' with
    | cipher hv' hcell' => cases hcell.symm.trans hcell'; rfl

theorem Acts.unique (hb : b ≤ 8) (htype : type = .raw ∨ type = .cipher) (hf : m.Acts type ops f)
    (hg : m.Acts type ops g) (r : BitVec b) : f r = g r := by
  obtain ⟨v, x, hx⟩ := exists_carries m htype (ofResidue r)
  obtain ⟨y, v', hrun, hy⟩ := hf v x _ hx
  obtain ⟨z, w', hrun', hz⟩ := hg v x _ hx
  obtain ⟨heq, rfl⟩ := hrun.unique hrun'
  cases heq
  have hbytes := hy.unique hz
  simpa [residue_ofResidue hb, ofResidue_inj hb] using hbytes

/-- Operations that turn the bits by `i` places turn them by `j` places only if the difference is a
whole number of turns. -/
theorem Acts.spin_iff (hpos : 0 < b) (hb : b ≤ 8) (htype : type = .raw ∨ type = .cipher) {i j : Int}
    (h : m.Acts type ops (spin (b := b) i)) :
    m.Acts type ops (spin (b := b) j) ↔ (b : Int) ∣ j - i := by
  rw [← spin_eq_iff hpos]
  constructor
  · intro hj r
    exact hj.unique hb htype h r
  · intro heq
    have hspin : spin (b := b) j = spin i := funext heq
    rwa [hspin]

/-- A chain of rotations, of values in the clear or of ciphertexts, turns the bits by the sum of
what its steps leave modulo eight, and so by the sum of its steps exactly if the width divides the
difference. One rotation turns by its steps, or two to the left by the sum of theirs, exactly if the
width divides what is taken off; a rotation to the right always undoes the one to the left; and one
to the left changes nothing exactly if the width divides what is left of its steps. -/
theorem rotations_turn_bits (hc : m.context.Gated b) (hkeys : m.keys.evaluationKeys.isSome)
    (htype : type = .raw ∨ type = .cipher) :
    (∀ ops : List (NodeId × Operation), ops ≠ [] → (∀ n ∈ ops, n.2.isRotation = true) →
      m.Acts type ops (spin (b := b) (ops.map (·.2.countedSteps)).sum) ∧
      (m.Acts type ops (spin (b := b) (ops.map (·.2.steps)).sum) ↔
        (b : Int) ∣ (ops.map (·.2.steps)).sum - (ops.map (·.2.countedSteps)).sum)) ∧
    ∀ (i j : NodeId) (k n : Nat),
      (m.Acts type [(i, .rotateLeft k)] (fun r : BitVec b => r.rotateLeft k) ↔
        b ∣ 8 * (k / 8)) ∧
      (m.Acts type [(i, .rotateLeft k), (j, .rotateLeft n)]
          (fun r : BitVec b => r.rotateLeft (k + n)) ↔ b ∣ 8 * (k / 8 + n / 8)) ∧
      m.Acts type [(i, .rotateLeft k), (j, .rotateRight k)] (fun r : BitVec b => r) ∧
      (m.Acts type [(i, .rotateLeft k)] (fun r : BitVec b => r) ↔ b ∣ k % 8) := by
  have hchain (ops : List (NodeId × Operation)) (hne : ops ≠ [])
      (hops : ∀ n ∈ ops, n.2.isRotation = true) :
      m.Acts type ops (spin (b := b) (ops.map (·.2.countedSteps)).sum) :=
    acts_rotations hc hkeys hne hops
  constructor
  · intro ops hne hops
    have hcounted := hchain ops hne hops
    exact ⟨hcounted, hcounted.spin_iff hc.pos hc.le htype⟩
  · intro i j k n
    have hid : (fun r : BitVec b => r) = spin 0 := funext fun r => (spin_zero hc.pos r).symm
    have hleft (k : Nat) : (fun r : BitVec b => r.rotateLeft k) = spin (k : Int) :=
      funext fun r => (spin_natCast k r).symm
    rw [hid, hleft, hleft]
    have hone : m.Acts type [(i, .rotateLeft k)] (spin (b := b) (k % 8 : Nat)) := by
      simpa [Operation.countedSteps] using
        hchain [(i, .rotateLeft k)] (by simp) (by simp [Operation.isRotation])
    have htwo : m.Acts type [(i, .rotateLeft k), (j, .rotateLeft n)]
        (spin (b := b) (k % 8 + n % 8 : Nat)) := by
      simpa [Operation.countedSteps] using
        hchain [(i, .rotateLeft k), (j, .rotateLeft n)] (by simp) (by simp [Operation.isRotation])
    have hback : m.Acts type [(i, .rotateLeft k), (j, .rotateRight k)] (spin (b := b) 0) := by
      simpa [Operation.countedSteps] using
        hchain [(i, .rotateLeft k), (j, .rotateRight k)] (by simp) (by simp [Operation.isRotation])
    refine ⟨?_, ?_, hback, ?_⟩
    · have hoff : (k : Int) - (k % 8 : Nat) = (8 * (k / 8) : Nat) := by omega
      rw [hone.spin_iff hc.pos hc.le htype, hoff, Int.natCast_dvd_natCast]
    · have hoff : ((k + n : Nat) : Int) - (k % 8 + n % 8 : Nat) = (8 * (k / 8 + n / 8) : Nat) := by
        omega
      rw [htwo.spin_iff hc.pos hc.le htype, hoff, Int.natCast_dvd_natCast]
    · rw [hone.spin_iff hc.pos hc.le htype, zero_sub, Int.dvd_neg, Int.natCast_dvd_natCast]

end Machine

def threeBitKeys : Public .bitwise where
  context := ⟨0, .bitwise 3⟩
  key := ⟨.ofMaterial [], []⟩
  evaluationKeys := some ⟨.ofMaterial [], false, []⟩
  scheme_eq := rfl
  consistent := by decide
  owned := by rintro _ ⟨⟩; rfl

def threeBitMachine : Machine Scheme.bitwise := ⟨.blank "g" 1 ⟨0⟩, threeBitKeys, ∅⟩

/-- A rotation by four places turns three bits by four places, but one by eight places does not turn
them by eight. -/
theorem Machine.rotations_turn_bits_threeBits :
    threeBitMachine.Acts .cipher [(1, .rotateLeft 4)] (fun r : BitVec 3 => r.rotateLeft 4) ∧
      ¬ threeBitMachine.Acts .cipher [(1, .rotateLeft 8)] (fun r : BitVec 3 => r.rotateLeft 8) := by
  have hgated : threeBitMachine.context.Gated 3 := ⟨rfl, rfl, by decide, by decide⟩
  obtain ⟨-, hturns⟩ := rotations_turn_bits hgated rfl (.inr rfl)
  exact ⟨(hturns 1 2 4 0).1.mpr (by decide), fun h => absurd ((hturns 1 2 8 0).1.mp h) (by decide)⟩

/-- The lowest of three bits is turned left by eight places, which is by two. It stays where it is,
in the clear and encrypted. -/
theorem Machine.eight_places_of_three_bits :
    (1#3).rotateLeft 8 = 4#3 ∧
    Runs (threeBitMachine.unary 1 (.rotateLeft 8) (.raw [(1 : UInt8)])) .empty
      (.ok (.raw [(1 : UInt8)])) .empty ∧
    Runs (threeBitMachine.unary 1 (.rotateLeft 8) (.cipher (⟨0, 0, 0⟩ : Gates.Ciphertext)))
      ⟨[⟨1, [(0, ⟨0, 1⟩)], 0, 0⟩]⟩ (.ok (.cipher (⟨0, 1, 0⟩ : Gates.Ciphertext)))
      ⟨[⟨2, [(1, ⟨0, 1⟩), (0, ⟨0, 1⟩)], 0, 0⟩]⟩ := by
  refine ⟨by decide, ?_, ?_⟩
  · unfold Runs
    rfl
  · unfold Runs
    rfl

end CipherGraph

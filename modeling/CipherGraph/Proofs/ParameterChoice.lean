import CipherGraph.Proofs.Contexts
import Mathlib.Data.Nat.Find
import Mathlib.Order.Bounds.Basic
import Mathlib.Order.Nat

/-! # The choice of a degree

Without a prescribed degree the two packed families take the least supported one that will do. A
family takes a degree before the parameters are checked, so that the refusal of one degree has to
carry over to all that are greater: in the approximate family the chain is the same at every
degree, and in the exact family a modulus that packs at one degree packs at all smaller ones.
-/

namespace CipherGraph.Parameters

variable {kind : SchemeKind} {r : KeyRequirements} {c : SchemeConfig} {p : Parameters}
  {D D' limit : Nat} {t : UInt64} {test : Nat × Nat → Bool}

def IsDegree (D : Nat) : Prop := ∃ limit, (D, limit) ∈ degrees

theorem pairwise_degrees : degrees.Pairwise (·.1 < ·.1) := by decide

theorem maxModulusBits?_of_mem : ∀ d ∈ degrees, maxModulusBits? d.1 = some d.2 := by decide

theorem bounds_of_mem : ∀ d ∈ degrees, 1024 ≤ d.1 ∧ d.1 < UInt64.size := by decide

theorem limit_lt_of_mem : ∀ d ∈ degrees, d.2 < UInt32.size := by decide

theorem dvd_of_mem : ∀ d ∈ degrees, ∀ d' ∈ degrees, d.1 ≤ d'.1 → d.1 ∣ d'.1 := by decide

theorem IsDegree.le (h : IsDegree D) : 1024 ≤ D := h.elim fun _ h => (bounds_of_mem _ h).1

theorem IsDegree.toNat (h : IsDegree D) : (UInt64.ofNat D).toNat = D :=
  h.elim fun _ h => UInt64.toNat_ofNat_of_lt' (bounds_of_mem _ h).2

theorem IsDegree.dvd (h : IsDegree D) (h' : IsDegree D') (hle : D ≤ D') : D ∣ D' := by
  obtain ⟨_, h⟩ := h
  obtain ⟨_, h'⟩ := h'
  exact dvd_of_mem _ h _ h' hle

theorem isLeast_of_find? (h : degrees.find? test = some (D, limit)) :
    IsLeast {D | ∃ limit, (D, limit) ∈ degrees ∧ test (D, limit)} D := by
  obtain ⟨htest, before, after, heq, hbefore⟩ := List.find?_eq_some_iff_append.mp h
  have hpairwise := pairwise_degrees
  rw [heq, List.pairwise_append, List.pairwise_cons] at hpairwise
  obtain ⟨-, ⟨hafter, -⟩, -⟩ := hpairwise
  constructor
  · exact ⟨limit, List.mem_of_find?_eq_some h, htest⟩
  · rintro D' ⟨limit', hmem, htest'⟩
    rw [heq, List.mem_append, List.mem_cons] at hmem
    rcases hmem with hmem | hmem | hmem
    · have hfails := hbefore _ hmem
      simp [htest'] at hfails
    · cases hmem
      exact le_rfl
    · exact (hafter _ hmem).le

theorem find?_degrees_iff :
    (∃ limit, degrees.find? test = some (D, limit)) ↔
      IsLeast {D | ∃ limit, (D, limit) ∈ degrees ∧ test (D, limit)} D := by
  constructor
  · rintro ⟨limit, h⟩
    exact isLeast_of_find? h
  · intro hleast
    obtain ⟨limit, hmem, htest⟩ := hleast.1
    have hsome : (degrees.find? test).isSome := List.find?_isSome.mpr ⟨_, hmem, htest⟩
    obtain ⟨⟨D', limit'⟩, hfound⟩ := Option.isSome_iff_exists.mp hsome
    cases (isLeast_of_find? hfound).unique hleast
    exact ⟨limit', hfound⟩

theorem exists_isLeast_iff {s : Set Nat} : (∃ n, IsLeast s n) ↔ s.Nonempty := by
  classical
  constructor
  · rintro ⟨n, hn⟩
    exact hn.nonempty
  · intro hs
    exact ⟨Nat.find hs, Nat.find_spec hs, fun _ hn => Nat.find_min' hs hn⟩

/-- Primes of sizes that exist. -/
def PrimesOk (chain : List Nat) : Prop :=
  chain ≠ [] ∧ ∀ bits ∈ chain, 1 ≤ bits ∧ bits ≤ maxPrimeBits

theorem checkChain_iff (hdegree : p.degree.toNat = D) (hmem : (D, limit) ∈ degrees) :
    p.checkChain = .ok () ↔ PrimesOk p.chain ∧ p.totalBits ≤ limit := by
  have hlimit : maxModulusBits? p.degree.toNat = some limit := by
    rw [hdegree]
    exact maxModulusBits?_of_mem _ hmem
  have hprimes : (p.chain.isEmpty || p.chain.any fun bits => bits = 0 || bits > maxPrimeBits) =
      true ↔ ¬ PrimesOk p.chain := by
    simp only [PrimesOk, Bool.or_eq_true, List.isEmpty_iff, List.any_eq_true, decide_eq_true_eq,
      not_and_or, not_not, not_forall, Nat.not_le, Nat.lt_one_iff, exists_prop]
  unfold checkChain
  rw [hlimit]
  dsimp only
  split
  · next hbad =>
    apply iff_of_false
    · rintro ⟨⟩
    · exact fun h => hprimes.mp hbad h.1
  · next hgood =>
    rw [hprimes, not_not] at hgood
    simp only [hgood, true_and, gt_iff_lt]
    have hword : limit < UInt32.size := limit_lt_of_mem _ hmem
    split
    · next hover =>
      apply iff_of_false
      · rintro ⟨⟩
      · omega
    · split
      · next htotal =>
        apply iff_of_false
        · rintro ⟨⟩
        · omega
      · next htotal => exact iff_of_true rfl (Nat.not_lt.mp htotal)

def approximate (r : KeyRequirements) (c : SchemeConfig) (D : Nat) : Parameters :=
  { ckks (.ofNat D) (approximateChain c r.depth) with noise := c.noise }

theorem validate_approximate_iff (hmem : (D, limit) ∈ degrees) :
    (approximate r c D).validate = .ok () ↔
      PrimesOk (approximateChain c r.depth) ∧ chainBits (approximateChain c r.depth) ≤ limit := by
  have hlength : ¬ (approximate r c D).chain.length < 2 := by
    change ¬ (approximateChain c r.depth).length < 2
    simp [approximateChain]
  have hvalidate : (approximate r c D).validate = (approximate r c D).checkChain := by
    change (do
      (approximate r c D).checkChain
      if (approximate r c D).chain.length < 2 then throw ParameterFault.missingPrimes) = _
    rw [if_neg hlength, bind_pure_unit]
  rw [hvalidate]
  exact checkChain_iff (IsDegree.toNat ⟨limit, hmem⟩) hmem

theorem checkChain_bfv : ∀ d ∈ degrees, ∀ t, (bfv (.ofNat d.1) t).checkChain = .ok () := by
  simp only [degrees, List.forall_mem_cons]
  exact ⟨fun _ => rfl, fun _ => rfl, fun _ => rfl, fun _ => rfl, fun _ => rfl,
    fun _ => rfl, nofun⟩

theorem validate_bfv_iff (h : IsDegree D) :
    (bfv (.ofNat D) t).validate = .ok () ↔ 2 ≤ t.toNat ∧ t.toNat % (2 * D) = 1 := by
  obtain ⟨limit, hmem⟩ := h
  have hvalidate : (bfv (.ofNat D) t).validate = (bfv (.ofNat D) t).checkBatching := by
    change (_ >>= fun _ => _) = _
    rw [checkChain_bfv _ hmem]
    rfl
  have hdegree : (bfv (.ofNat D) t).degree.toNat = D := IsDegree.toNat ⟨limit, hmem⟩
  rw [hvalidate]
  unfold checkBatching
  rw [hdegree]
  dsimp only
  change (if t.toNat < 2 ∨ t.toNat % (2 * D) ≠ 1 then _ else _) = _ ↔ _
  split
  · next hbad =>
    apply iff_of_false
    · rintro ⟨⟩
    · omega
  · next hgood =>
    apply iff_of_true rfl
    omega

theorem validate_bfv_of_le (h : IsDegree D) (h' : IsDegree D') (hle : D ≤ D')
    (hvalid : (bfv (.ofNat D') t).validate = .ok ()) : (bfv (.ofNat D) t).validate = .ok () := by
  rw [validate_bfv_iff h'] at hvalid
  rw [validate_bfv_iff h]
  obtain ⟨hproper, hpacks⟩ := hvalid
  have hdvd : 2 * D ∣ 2 * D' := Nat.mul_dvd_mul_left 2 (h.dvd h' hle)
  constructor
  · exact hproper
  · rw [← Nat.mod_mod_of_dvd t.toNat hdvd, hpacks]
    apply Nat.mod_eq_of_lt
    have := h.le
    omega

theorem select_eq : select kind r c = do
    let q ← proposed kind r c
    q.validate
    if q.slotCount < max r.width 1 then throw (.width (max r.width 1) q.slotCount)
    return q := by
  cases kind <;> rfl

theorem select_iff : select kind r c = .ok p ↔
    proposed kind r c = .ok p ∧ p.validate = .ok () ∧ max r.width 1 ≤ p.slotCount := by
  constructor
  · exact select_ok
  · rintro ⟨hproposed, hvalid, hwidth⟩
    rw [select_eq, hproposed]
    change (do
      p.validate
      if p.slotCount < max r.width 1 then
        throw (ParameterFault.width (max r.width 1) p.slotCount)
      return p) = _
    rw [hvalid, if_neg (Nat.not_lt.mpr hwidth)]
    rfl

theorem select_error_iff : (∃ e, select kind r c = .error e) ↔ ¬ ∃ p, select kind r c = .ok p := by
  cases select kind r c <;> simp

/-- A scale of a size that a prime may have. -/
def ScaleOk (c : SchemeConfig) : Prop := 1 ≤ c.scaleBits ∧ c.scaleBits ≤ maxPrimeBits

theorem selectApproximate_iff {width : Nat} (hfree : c.degree = none) :
    selectApproximate r c width = .ok p ↔ ScaleOk c ∧ ∃ D,
      IsLeast {D | ∃ limit, (D, limit) ∈ degrees ∧
        width ≤ D / 2 ∧ chainBits (approximateChain c r.depth) ≤ limit} D ∧
      p = approximate r c D := by
  have hsearch (D : Nat) := @find?_degrees_iff D fun d =>
    d.1 / 2 ≥ width && d.2 ≥ chainBits (approximateChain c r.depth)
  simp only [ge_iff_le, Bool.and_eq_true, decide_eq_true_eq] at hsearch
  unfold selectApproximate
  rw [hfree]
  simp only [← hsearch]
  split
  · next hscale =>
    have hscale : ¬ ScaleOk c := by
      simp only [Bool.or_eq_true, decide_eq_true_eq] at hscale
      unfold ScaleOk
      omega
    apply iff_of_false
    · rintro ⟨⟩
    · exact fun h => hscale h.1
  · next hscale =>
    have hscale : ScaleOk c := by
      simp only [Bool.or_eq_true, decide_eq_true_eq] at hscale
      unfold ScaleOk
      omega
    simp only [hscale, true_and]
    split
    · next hover =>
      apply iff_of_false
      · rintro ⟨⟩
      · rintro ⟨D, ⟨limit, hfound⟩, -⟩
        have hword : limit < UInt32.size := limit_lt_of_mem _ (List.mem_of_find?_eq_some hfound)
        have htest := List.find?_some hfound
        simp only [Bool.and_eq_true, decide_eq_true_eq] at htest
        omega
    · generalize degrees.find? _ = found
      cases found with
      | none => simp
      | some d =>
        constructor
        · rintro ⟨⟩
          exact ⟨d.1, ⟨d.2, rfl⟩, rfl⟩
        · rintro ⟨_, ⟨_, ⟨⟩⟩, rfl⟩
          rfl

theorem selectExact_iff {width : Nat} (hfree : c.degree = none) :
    selectExact r c width = .ok p ↔
      ∃ D, IsLeast {D | IsDegree D ∧ max (slotsNeeded r width) 4096 ≤ D} D ∧
        p = bfv (.ofNat D) c.plainModulus := by
  have hsearch (D : Nat) := @find?_degrees_iff D fun d => d.1 ≥ max (slotsNeeded r width) 4096
  simp only [ge_iff_le, decide_eq_true_eq, exists_and_right] at hsearch
  unfold selectExact
  rw [hfree]
  simp only [IsDegree, ← hsearch]
  generalize degrees.find? _ = found
  cases found with
  | none => simp
  | some d =>
    constructor
    · rintro ⟨⟩
      exact ⟨d.1, ⟨d.2, rfl⟩, rfl⟩
    · rintro ⟨_, ⟨_, ⟨⟩⟩, rfl⟩
      rfl

/-- The degrees at which the chain passes the checks and half of which is enough for the width. -/
def approximateDegrees (r : KeyRequirements) (c : SchemeConfig) : Set Nat :=
  {D | IsDegree D ∧ (approximate r c D).validate = .ok () ∧ r.width ≤ D / 2}

/-- The degrees that give the exact family slots enough; rotations need twice as many. -/
def exactDegrees (r : KeyRequirements) : Set Nat :=
  {D | IsDegree D ∧ max 4096 (if r.rotationSteps = [] then r.width else 2 * r.width) ≤ D}

theorem mem_approximateDegrees_iff : D ∈ approximateDegrees r c ↔
    PrimesOk (approximateChain c r.depth) ∧ ∃ limit, (D, limit) ∈ degrees ∧
      max r.width 1 ≤ D / 2 ∧ chainBits (approximateChain c r.depth) ≤ limit := by
  constructor
  · rintro ⟨⟨limit, hmem⟩, hvalid, hwidth⟩
    obtain ⟨hprimes, htotal⟩ := (validate_approximate_iff hmem).mp hvalid
    have := (bounds_of_mem _ hmem).1
    exact ⟨hprimes, limit, hmem, by omega, htotal⟩
  · rintro ⟨hprimes, limit, hmem, hwidth, htotal⟩
    exact ⟨⟨limit, hmem⟩, (validate_approximate_iff hmem).mpr ⟨hprimes, htotal⟩, by omega⟩

theorem mem_exactDegrees_iff :
    D ∈ exactDegrees r ↔ IsDegree D ∧ max (slotsNeeded r (max r.width 1)) 4096 ≤ D := by
  apply and_congr_right
  intro _
  simp only [slotsNeeded, List.isEmpty_iff]
  split <;> omega

theorem select_ckks_iff (hfree : c.degree = none) :
    select .ckks r c = .ok p ↔
      ScaleOk c ∧ ∃ D, IsLeast (approximateDegrees r c) D ∧ p = approximate r c D := by
  rw [select_iff]
  change selectApproximate r c _ = _ ∧ _ ↔ _
  rw [selectApproximate_iff hfree]
  -- Unless all primes exist, no degree is taken, and the degree proposed does not pass the checks.
  by_cases hprimes : PrimesOk (approximateChain c r.depth)
  · have hdegrees : approximateDegrees r c = {D | ∃ limit, (D, limit) ∈ degrees ∧
        max r.width 1 ≤ D / 2 ∧ chainBits (approximateChain c r.depth) ≤ limit} := by
      ext D
      simp only [mem_approximateDegrees_iff, hprimes, true_and, Set.mem_ofPred_eq]
    rw [← hdegrees]
    constructor
    · exact And.left
    · rintro ⟨hscale, D, hleast, rfl⟩
      obtain ⟨hdegree, hvalid, hwidth⟩ := hleast.1
      have hslots : (approximate r c D).slotCount = D / 2 := by
        change (UInt64.ofNat D).toNat / 2 = _
        rw [hdegree.toNat]
      have := hdegree.le
      exact ⟨⟨hscale, D, hleast, rfl⟩, hvalid, by omega⟩
  · apply iff_of_false
    · rintro ⟨⟨-, D, ⟨⟨limit, hmem, -⟩, -⟩, rfl⟩, hvalid, -⟩
      exact hprimes ((validate_approximate_iff hmem).mp hvalid).1
    · rintro ⟨-, D, ⟨hmem, -⟩, -⟩
      exact hprimes (mem_approximateDegrees_iff.mp hmem).1

theorem select_bfv_iff (hfree : c.degree = none) :
    select .bfv r c = .ok p ↔ ∃ D, IsLeast (exactDegrees r) D ∧
      (bfv (.ofNat D) c.plainModulus).validate = .ok () ∧ p = bfv (.ofNat D) c.plainModulus := by
  have hdegrees : exactDegrees r =
      {D | IsDegree D ∧ max (slotsNeeded r (max r.width 1)) 4096 ≤ D} :=
    Set.ext fun _ => mem_exactDegrees_iff
  rw [select_iff]
  change selectExact r c _ = _ ∧ _ ↔ _
  rw [selectExact_iff hfree, ← hdegrees]
  constructor
  · rintro ⟨⟨D, hleast, rfl⟩, hvalid, -⟩
    exact ⟨D, hleast, hvalid, rfl⟩
  · rintro ⟨D, hleast, hvalid, rfl⟩
    obtain ⟨hdegree, hbound⟩ := hleast.1
    have hslots : (bfv (.ofNat D) c.plainModulus).slotCount = D := hdegree.toNat
    have hwidth : r.width ≤ D := by
      split at hbound <;> omega
    exact ⟨⟨D, hleast, rfl⟩, hvalid, by omega⟩

/-- Without a prescribed degree the approximate family takes the least degree at which its chain
passes the checks and the slots are enough, and fails exactly if the scale is no size of a prime or
there is no such degree. The exact family takes the least degree with slots enough, and fails
exactly if the modulus packs at none of them. -/
theorem select_least (hfree : c.degree = none) :
    (∀ p, select .ckks r c = .ok p ↔
      ScaleOk c ∧ ∃ D, IsLeast (approximateDegrees r c) D ∧ p = approximate r c D) ∧
    ((∃ e, select .ckks r c = .error e) ↔ ¬ ScaleOk c ∨ approximateDegrees r c = ∅) ∧
    (∀ p, select .bfv r c = .ok p ↔ ∃ D, IsLeast (exactDegrees r) D ∧
      (bfv (.ofNat D) c.plainModulus).validate = .ok () ∧ p = bfv (.ofNat D) c.plainModulus) ∧
    ((∃ e, select .bfv r c = .error e) ↔
      ∀ D ∈ exactDegrees r, (bfv (.ofNat D) c.plainModulus).validate ≠ .ok ()) := by
  refine ⟨fun p => select_ckks_iff hfree, ?_, fun p => select_bfv_iff hfree, ?_⟩
  · rw [select_error_iff, ← Set.not_nonempty_iff_eq_empty, ← exists_isLeast_iff, ← not_and_or,
      not_iff_not]
    simp only [select_ckks_iff hfree]
    constructor
    · rintro ⟨_, hscale, D, hleast, rfl⟩
      exact ⟨hscale, D, hleast⟩
    · rintro ⟨hscale, D, hleast⟩
      exact ⟨_, hscale, D, hleast, rfl⟩
  · rw [select_error_iff, not_iff_comm]
    push Not
    simp only [select_bfv_iff hfree]
    constructor
    · -- A modulus that packs at some degree packs at the least one.
      rintro ⟨D, hmem, hvalid⟩
      obtain ⟨D₀, hleast⟩ := exists_isLeast_iff.mpr ⟨D, hmem⟩
      have hvalid₀ := validate_bfv_of_le hleast.1.1 hmem.1 (hleast.2 hmem) hvalid
      exact ⟨_, D₀, hleast, hvalid₀, rfl⟩
    · rintro ⟨_, D, hleast, hvalid, rfl⟩
      exact ⟨D, hleast.1, hvalid⟩

/-- Widths of the approximate family are halves, and so are those of rotations in the exact one:
both take 8192 here, one for its chain of 180 bits, the other for two rows of 4096 slots. -/
theorem select_least_default :
    IsLeast (approximateDegrees ⟨[], 1, false, 16⟩ .default) 8192 ∧
      IsLeast (exactDegrees ⟨[1], 0, false, 4096⟩) 8192 := by
  have hchain : select .ckks ⟨[], 1, false, 16⟩ .default =
      .ok (approximate ⟨[], 1, false, 16⟩ .default 8192) := rfl
  have hrows : select .bfv ⟨[1], 0, false, 4096⟩ .default = .ok (bfv 8192 786433) := rfl
  obtain ⟨-, D, hleast, heq⟩ := ((select_least rfl).1 _).mp hchain
  obtain ⟨D', hleast', -, heq'⟩ := ((select_least rfl).2.2.1 _).mp hrows
  have hdegree : 8192 = D := by
    rw [← hleast.1.1.toNat]
    exact congrArg (·.degree.toNat) heq
  have hdegree' : 8192 = D' := by
    rw [← hleast'.1.1.toNat]
    exact congrArg (·.degree.toNat) heq'
  exact ⟨hdegree ▸ hleast, hdegree' ▸ hleast'⟩

end CipherGraph.Parameters

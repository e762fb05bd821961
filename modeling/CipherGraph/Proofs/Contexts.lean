import CipherGraph.Proofs.KeyPairs
import Mathlib.Data.Nat.Prime.Basic

/-! # Contexts

A cache hands out contexts of the parameters asked for, which are valid. Valid parameters of the
exact family have a power of two of slots, in two rows.
-/

namespace CipherGraph

variable {p : Parameters} {context : Context} {v v' : Vault}

namespace ContextCache

variable {cache cache' : ContextCache} {inUse : Context → Bool}

inductive Reachable : ContextCache → Prop where
  | create (capacity : Nat) : Reachable (.create capacity)
  | getOrCreate {cache cache' : ContextCache} {p : Parameters} {inUse : Context → Bool}
      {r : Except ExecError Context} {v v' : Vault} (hc : Reachable cache)
      (h : (cache.getOrCreate p inUse).run v = ((cache', r), v')) : Reachable cache'

/-- Every context that is kept is one of its parameters, which are valid. -/
def Coherent (cache : ContextCache) : Prop :=
  ∀ p context, (p, context) ∈ cache.entries → context.params = p ∧ p.validate = .ok ()

theorem derive_ok (h : Runs (Exec.derive p) v (.ok context) v') :
    context.params = p ∧ p.validate = .ok () := by
  unfold Exec.derive at h
  split at h
  · cases (runs_throw.mp h).1
  · next hvalid =>
    rw [runs_get_bind, runs_set_bind] at h
    cases (runs_pure.mp h).1
    exact ⟨rfl, hvalid⟩

theorem Coherent.evict (h : cache.Coherent) : (cache.evict p inUse).Coherent :=
  fun q context hq => h q context (List.mem_filter.mp hq).1

theorem Coherent.find? (h : cache.Coherent) (hfound : cache.find? p = some context) :
    context.params = p ∧ p.validate = .ok () := by
  obtain ⟨⟨q, _⟩, hq, rfl⟩ := Option.map_eq_some_iff.mp hfound
  have hkey : q = p := by simpa using List.find?_some hq
  subst hkey
  exact h q _ (List.mem_of_find?_eq_some hq)

theorem Coherent.getOrCreate (h : cache.Coherent) {r : Except ExecError Context}
    (hrun : (cache.getOrCreate p inUse).run v = ((cache', r), v')) :
    cache'.Coherent ∧ ∀ context, r = .ok context →
      context.params = p ∧ p.validate = .ok () := by
  unfold ContextCache.getOrCreate at hrun
  dsimp only at hrun
  split at hrun
  · next context hfound =>
    cases hrun
    exact ⟨h.evict, by rintro _ ⟨⟩; exact h.evict.find? hfound⟩
  · obtain ⟨made, v₁, hmade⟩ := runs_exists (Exec.derive p) v
    rw [StateT.run_bind] at hrun
    unfold Runs at hmade
    rw [hmade] at hrun
    cases made with
    | error e =>
      cases hrun
      exact ⟨h.evict, by rintro _ ⟨⟩⟩
    | ok context =>
      have hcontext := derive_ok hmade
      change StateT.run (if _ then _ else _) v₁ = _ at hrun
      split at hrun
      · cases hrun
        exact ⟨h.evict, by rintro _ ⟨⟩; exact hcontext⟩
      · cases hrun
        refine ⟨fun q kept hq => ?_, by rintro _ ⟨⟩; exact hcontext⟩
        rcases List.mem_append.mp hq with hq | hq
        · exact h.evict q kept hq
        · cases List.mem_singleton.mp hq
          exact hcontext

theorem Reachable.coherent (h : cache.Reachable) : cache.Coherent := by
  induction h with
  | create capacity => exact fun p context hp => absurd hp List.not_mem_nil
  | getOrCreate _ h ih => exact (ih.getOrCreate h).1

end ContextCache

namespace Parameters

variable {kind : SchemeKind} {r : KeyRequirements} {c : SchemeConfig} {width : Nat}

/-- What is checked of selected parameters does not change them. -/
theorem checked_ok {q : Parameters}
    (h : (do
      q.validate
      if q.slotCount < width then throw (ParameterFault.width width q.slotCount)
      return q) = .ok p) : q = p ∧ p.validate = .ok () ∧ width ≤ p.slotCount := by
  obtain ⟨_, hvalid, h⟩ := Except.bind_eq_ok.mp h
  dsimp only at h
  split at h
  · obtain ⟨_, h, -⟩ := Except.bind_eq_ok.mp h
    cases h
  · next hwidth =>
    cases h
    exact ⟨rfl, hvalid, Nat.not_lt.mp hwidth⟩

/-- What a family selects, before it is checked. -/
def proposed (kind : SchemeKind) (r : KeyRequirements) (c : SchemeConfig) :
    Except ParameterFault Parameters :=
  match kind with
  | .ckks => selectApproximate r c (max r.width 1)
  | .bfv => selectExact r c (max r.width 1)
  | .bitwise => selectBitwise r c

theorem select_ok (h : select kind r c = .ok p) :
    proposed kind r c = .ok p ∧ p.validate = .ok () ∧ max r.width 1 ≤ p.slotCount := by
  unfold select at h
  cases kind with
  | ckks | bfv | bitwise =>
    obtain ⟨q, hq, h⟩ := Except.bind_eq_ok.mp h
    obtain ⟨rfl, hchecked⟩ := checked_ok h
    exact ⟨hq, hchecked⟩

theorem selectApproximate_ok (h : selectApproximate r c width = .ok p) :
    ∃ degree, p = { ckks degree (approximateChain c r.depth) with noise := c.noise } := by
  unfold selectApproximate at h
  dsimp only at h
  split at h
  · cases h
  · split at h
    · cases h
    · split at h
      · cases h
        exact ⟨_, rfl⟩
      · split at h <;> cases h
        exact ⟨_, rfl⟩

theorem degree_of_mem : ∀ d ∈ degrees, ∃ k < 15, d.1 = 2 ^ (k + 1) := by decide

/-- A degree that is not prescribed leaves room for the slots needed. -/
theorem selectExact_ok (h : selectExact r c width = .ok p) :
    p = bfv p.degree c.plainModulus ∧
      (c.degree = some p.degree ∨ c.degree = none ∧ slotsNeeded r width ≤ p.degree.toNat) := by
  unfold selectExact at h
  split at h
  · next hdegree =>
    cases h
    exact ⟨rfl, .inl hdegree⟩
  · next hdegree =>
    dsimp only at h
    split at h
    · next degree _ hfound =>
      cases h
      have hroom : max (slotsNeeded r width) 4096 ≤ degree := by simpa using List.find?_some hfound
      obtain ⟨k, hk, rfl⟩ : ∃ k < 15, degree = 2 ^ (k + 1) :=
        degree_of_mem _ (List.mem_of_find?_eq_some hfound)
      have hlt : 2 ^ (k + 1) < UInt64.size :=
        Nat.lt_of_le_of_lt (Nat.pow_le_pow_right (by omega) hk) (by decide)
      refine ⟨rfl, .inr ⟨hdegree, ?_⟩⟩
      change _ ≤ (UInt64.ofNat (2 ^ (k + 1))).toNat
      rw [UInt64.toNat_ofNat_of_lt' hlt]
      exact (le_max_left _ _).trans hroom
    · cases h

theorem selectBitwise_ok (h : selectBitwise r c = .ok p) :
    r.width ≤ 1 ∧ p = bitwise c.bitWidth := by
  unfold selectBitwise at h
  split at h
  · cases h
  · next hwidth =>
    cases h
    exact ⟨Nat.not_lt.mp hwidth, rfl⟩

theorem degree_of_checkChain (h : p.checkChain = .ok ()) :
    ∃ k < 15, p.degree.toNat = 2 ^ (k + 1) := by
  unfold checkChain at h
  split at h
  · cases h
  · next limit hlimit =>
    obtain ⟨⟨degree, _⟩, hfound, -⟩ := Option.map_eq_some_iff.mp hlimit
    have hdegree : degree = p.degree.toNat := by simpa using List.find?_some hfound
    rw [← hdegree]
    exact degree_of_mem _ (List.mem_of_find?_eq_some hfound)

end Parameters

theorem Parameters.select_exact {kind : SchemeKind} {r : KeyRequirements} {c : SchemeConfig}
    (h : Parameters.select kind r c = .ok p) (hkind : kind = .bfv) :
    p.scheme = .bfv ∧ p.plainModulus = c.plainModulus := by
  subst hkind
  obtain ⟨heq, -⟩ := selectExact_ok (select_ok h).1
  rw [heq]
  exact ⟨rfl, rfl⟩

theorem Parameters.validate_exact (hs : p.scheme = .bfv) (h : p.validate = .ok ()) :
    (∃ k < 15, p.degree.toNat = 2 ^ (k + 1)) ∧ 2 ≤ p.plainModulus.toNat := by
  unfold Parameters.validate at h
  rw [hs] at h
  obtain ⟨_, hchain, hbatching⟩ := Except.bind_eq_ok.mp h
  constructor
  · exact degree_of_checkChain hchain
  · unfold checkBatching at hbatching
    dsimp only at hbatching
    split at hbatching
    · cases hbatching
    · omega

theorem dvd_of_le_of_dvd_two_pow {k w n : Nat} (hw : w ∣ 2 ^ k) (hn : n ∣ 2 ^ k) (hle : n ≤ w) :
    n ∣ w := by
  obtain ⟨a, -, rfl⟩ := (Nat.dvd_prime_pow Nat.prime_two).mp hw
  obtain ⟨b, -, rfl⟩ := (Nat.dvd_prime_pow Nat.prime_two).mp hn
  exact Nat.pow_dvd_pow 2 ((Nat.pow_le_pow_iff_right (by omega)).mp hle)

/-- A power of two of slots in two rows, and residues of a modulus greater than one. -/
structure Context.Packs (context : Context) (t : Nat) : Prop where
  modulus : context.params.plainModulus.toNat = t
  proper : 2 ≤ t
  rows : ∃ k < 15, context.slotCount = 2 ^ (k + 1) ∧ context.rowSize = 2 ^ k

theorem Parameters.packs (hs : p.scheme = .bfv) (h : p.validate = .ok ())
    (hc : context.params = p) : context.Packs p.plainModulus.toNat := by
  obtain ⟨⟨k, hk, hdegree⟩, hproper⟩ := validate_exact hs h
  refine ⟨by rw [hc], hproper, k, hk, ?_, ?_⟩
  · rw [Context.slotCount, hc, slotCount, hs]
    exact hdegree
  · rw [Context.rowSize, hc, rowSize, hs]
    change p.degree.toNat / 2 = 2 ^ k
    rw [hdegree, Nat.pow_succ, Nat.mul_div_cancel _ (by omega)]

namespace Context.Packs

variable {t w n : Nat} (h : context.Packs t)

include h

theorem neZero : NeZero t := ⟨Nat.ne_of_gt (Nat.lt_of_lt_of_le (by omega) h.proper)⟩

theorem modulus_lt : t < UInt64.size := h.modulus ▸ UInt64.toNat_lt _

theorem dvd_of_le (hw : w ∣ context.slotCount) (hn : n ∣ context.slotCount) (hle : n ≤ w) :
    n ∣ w := by
  obtain ⟨k, -, hslots, -⟩ := h.rows
  exact dvd_of_le_of_dvd_two_pow (hslots ▸ hw) (hslots ▸ hn) hle

theorem row_dvd : context.rowSize ∣ context.slotCount := by
  obtain ⟨k, -, hslots, hrow⟩ := h.rows
  rw [hslots, hrow]
  exact Nat.pow_dvd_pow 2 (Nat.le_succ k)

theorem row_pos : 0 < context.rowSize := by
  obtain ⟨k, -, -, hrow⟩ := h.rows
  rw [hrow]
  exact Nat.pow_pos (by omega)

theorem slotCount_le : context.slotCount ≤ 32768 := by
  obtain ⟨k, hk, hslots, -⟩ := h.rows
  rw [hslots]
  exact Nat.pow_le_pow_right (by omega) (by omega : k + 1 ≤ 15)

end Context.Packs

theorem keygen_packs {scheme : SchemeKind} {r : KeyRequirements} {c : SchemeConfig}
    {fresh : Random} {cache cache' : ContextCache} {inUse : Context → Bool} {pub : Public .bfv}
    {sec : Secret .bfv} (hcache : cache.Reachable)
    (h : (keygen .bfv scheme r c fresh cache inUse).run v = ((cache', .ok (pub, sec)), v')) :
    scheme = .bfv ∧ ∃ context, context.Packs c.plainModulus.toNat ∧ Paired context r pub sec := by
  obtain ⟨hscheme, p, context, hselect, hcontext, hkeys⟩ := keygen_ok h
  obtain ⟨hs, ht⟩ := Parameters.select_exact hselect rfl
  obtain ⟨hparams, hvalid⟩ := (hcache.coherent.getOrCreate hcontext).2 context rfl
  exact ⟨hscheme, context, ht ▸ Parameters.packs hs hvalid hparams, paired_generateKeys hkeys⟩

/-- One slot of a byte, of which some bits are in use. -/
structure Context.Gated (context : Context) (b : Nat) : Prop where
  scheme : context.params.scheme = .bitwise
  width : context.params.bitWidth = b
  pos : 0 < b
  le : b ≤ 8

theorem Context.Gated.slotCount_eq {b : Nat} (h : context.Gated b) : context.slotCount = 1 := by
  rw [Context.slotCount, Parameters.slotCount, h.scheme]

theorem Parameters.select_gates {kind : SchemeKind} {r : KeyRequirements} {c : SchemeConfig}
    (h : Parameters.select kind r c = .ok p) (hkind : kind = .bitwise) :
    p = Parameters.bitwise c.bitWidth := by
  subst hkind
  exact (selectBitwise_ok (select_ok h).1).2

theorem Parameters.validate_gates {b : Nat} (h : (Parameters.bitwise b).validate = .ok ()) :
    0 < b ∧ b ≤ 8 := by
  unfold Parameters.validate Parameters.bitwise at h
  dsimp only at h
  split at h
  · cases h
  · omega

/-- Gate-level keys belong to a context of the bit width configured, of one to eight bits. -/
theorem keygen_gated {scheme : SchemeKind} {r : KeyRequirements} {c : SchemeConfig}
    {fresh : Random} {cache cache' : ContextCache} {inUse : Context → Bool} {pub : Public .bitwise}
    {sec : Secret .bitwise} (hcache : cache.Reachable)
    (h : (keygen .bitwise scheme r c fresh cache inUse).run v = ((cache', .ok (pub, sec)), v')) :
    ∃ context, context.Gated c.bitWidth ∧ Paired context r pub sec := by
  obtain ⟨-, p, context, hselect, hcontext, hkeys⟩ := keygen_ok h
  obtain ⟨hparams, hvalid⟩ := (hcache.coherent.getOrCreate hcontext).2 context rfl
  have hp := Parameters.select_gates hselect rfl
  rw [hp] at hparams hvalid
  obtain ⟨hpos, hle⟩ := Parameters.validate_gates hvalid
  exact ⟨context, ⟨by rw [hparams]; rfl, by rw [hparams]; rfl, hpos, hle⟩,
    paired_generateKeys hkeys⟩

end CipherGraph

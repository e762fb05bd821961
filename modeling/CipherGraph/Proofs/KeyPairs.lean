import CipherGraph.Execution.Basic
import CipherGraph.Proofs.Computation

/-! # Key pairs

The two halves that key generation hands out share a context and a secret, and the public half
carries evaluation keys.
-/

namespace CipherGraph

variable {kind : SchemeKind} {context : Context} {r : KeyRequirements} {pub : Public kind}
  {sec : Secret kind}

theorem Public.create_ok {key : PublicKey} {keys : Option EvaluationKeys}
    (h : Public.create kind context key keys = .ok pub) :
    pub.context = context ∧ pub.key = key ∧ pub.evaluationKeys = keys := by
  unfold Public.create at h
  split at h
  · split at h
    · split at h
      · cases h
        exact ⟨rfl, rfl, rfl⟩
      · split at h
        · cases h
          exact ⟨rfl, rfl, rfl⟩
        · cases h
    · cases h
  · cases h

theorem Public.create_of_owned {key : PublicKey} {keys : Option EvaluationKeys}
    (hs : context.scheme = kind) (hc : key.isConsistent = true)
    (hk : ∀ k, keys = some k → k.keyId = key.keyId) :
    Public.create kind context key keys = .ok ⟨context, key, keys, hs, hc, hk⟩ := by
  unfold Public.create
  rw [dif_pos hs, dif_pos hc]
  cases keys with
  | none => rfl
  | some k => exact dif_pos (hk k rfl)

theorem Secret.create_of_scheme (hs : context.scheme = kind) (key : SecretKey) :
    Secret.create kind context key = .ok ⟨context, key, hs⟩ := dif_pos hs

theorem Secret.create_ok {key : SecretKey} (h : Secret.create kind context key = .ok sec) :
    sec.context = context ∧ sec.key = key := by
  unfold Secret.create at h
  split at h
  · cases h
    exact ⟨rfl, rfl⟩
  · cases h

/-- The halves of one key pair in a context, made for some requirements. -/
structure Paired (context : Context) (r : KeyRequirements) (pub : Public kind)
    (sec : Secret kind) : Prop where
  context : pub.context = context ∧ sec.context = context
  key : pub.key = sec.key.publicKey
  evaluationKeys : ∃ keys, pub.evaluationKeys = some keys ∧ keys.relin = r.relinearize

theorem Paired.keyId_eq (h : Paired context r pub sec) : sec.keyId = pub.keyId := by
  rw [Public.keyId, h.key]
  rfl

/-- What key generation hands out; rotation keys are made where rotations need keys. -/
theorem generateKeys_ok {random : Random}
    (h : generateKeys kind context r random = .ok (pub, sec)) :
    context.scheme = kind ∧ ∃ elements,
      (if kind.capabilities.rotationKeys then galoisElements context r.rotationSteps else pure []) =
        .ok elements ∧
      pub.context = context ∧ sec.context = context ∧ pub.key = sec.key.publicKey ∧
        pub.evaluationKeys = some ⟨pub.key.keyId, r.relinearize, elements⟩ := by
  by_cases hs : context.scheme = kind
  · obtain ⟨elements, he, h⟩ : ∃ elements,
        (if kind.capabilities.rotationKeys then galoisElements context r.rotationSteps
          else pure []) = .ok elements ∧
        (do
          let pub ← Public.create kind context (SecretKey.mk random.secretSeed).publicKey
            (some ⟨(SecretKey.mk random.secretSeed).publicKey.keyId, r.relinearize, elements⟩)
          return (pub, ← Secret.create kind context ⟨random.secretSeed⟩)) = .ok (pub, sec) := by
      simp only [generateKeys, hs, ne_eq, not_true_eq_false, if_false] at h
      split at h
      · next hkeys =>
        obtain ⟨elements, he, h⟩ := Except.bind_eq_ok.mp h
        exact ⟨elements, by rwa [if_pos hkeys], h⟩
      · next hkeys => exact ⟨[], by rw [if_neg hkeys]; rfl, h⟩
    obtain ⟨pub', hpub, hrest⟩ := Except.bind_eq_ok.mp h
    obtain ⟨sec', hsec, hpair⟩ := Except.bind_eq_ok.mp hrest
    cases hpair
    obtain ⟨hcontext, hkey, hkeys⟩ := Public.create_ok hpub
    obtain ⟨hcontext', hkey'⟩ := Secret.create_ok hsec
    exact ⟨hs, elements, he, hcontext, hcontext', by rw [hkey, hkey'], by rw [hkeys, hkey]⟩
  · simp only [generateKeys, hs, ne_eq, not_false_eq_true, if_true] at h
    obtain ⟨_, hthrow, -⟩ := Except.bind_eq_ok.mp h
    cases hthrow

theorem paired_generateKeys {random : Random}
    (h : generateKeys kind context r random = .ok (pub, sec)) : Paired context r pub sec := by
  obtain ⟨-, elements, -, hpub, hsec, hkey, hkeys⟩ := generateKeys_ok h
  exact ⟨⟨hpub, hsec⟩, hkey, _, hkeys, rfl⟩

theorem exists_generateKeys (hs : context.scheme = kind) {elements : List Nat}
    (he : galoisElements context r.rotationSteps = .ok elements) (random : Random) :
    ∃ (pub : Public kind) (sec : Secret kind),
      generateKeys kind context r random = .ok (pub, sec) := by
  have hcreate (elements : List Nat) : ∃ pub, Public.create kind context
      (SecretKey.mk random.secretSeed).publicKey
        (some ⟨(SecretKey.mk random.secretSeed).publicKey.keyId, r.relinearize, elements⟩) =
          .ok pub :=
    ⟨_, Public.create_of_owned hs (decide_eq_true rfl) (by rintro _ ⟨⟩; rfl)⟩
  obtain ⟨sec, hsec⟩ : ∃ sec, Secret.create kind context ⟨random.secretSeed⟩ = .ok sec :=
    ⟨_, Secret.create_of_scheme hs _⟩
  simp only [generateKeys, hs, ne_eq, not_true_eq_false, if_false]
  split
  · obtain ⟨pub, hpub⟩ := hcreate elements
    exact ⟨pub, sec, Except.bind_eq_ok.mpr ⟨elements, he, Except.bind_eq_ok.mpr
      ⟨pub, hpub, Except.bind_eq_ok.mpr ⟨sec, hsec, rfl⟩⟩⟩⟩
  · obtain ⟨pub, hpub⟩ := hcreate []
    exact ⟨pub, sec, Except.bind_eq_ok.mpr ⟨[], rfl, Except.bind_eq_ok.mpr
      ⟨pub, hpub, Except.bind_eq_ok.mpr ⟨sec, hsec, rfl⟩⟩⟩⟩

/-- Key generation selects parameters, takes their context from the cache and makes keys there. -/
theorem keygen_ok {scheme : SchemeKind} {c : SchemeConfig} {fresh : Random}
    {cache cache' : ContextCache} {inUse : Context → Bool} {v v' : Vault}
    (h : (keygen kind scheme r c fresh cache inUse).run v = ((cache', .ok (pub, sec)), v')) :
    scheme = kind ∧ ∃ p context, Parameters.select kind r c = .ok p ∧
      (cache.getOrCreate p inUse).run v = ((cache', .ok context), v') ∧
        generateKeys kind context r (c.random fresh) = .ok (pub, sec) := by
  unfold keygen at h
  split at h
  · cases h
  · next hscheme =>
    refine ⟨Decidable.not_not.mp hscheme, ?_⟩
    split at h
    · cases h
    · next p hp =>
      rw [StateT.run_bind] at h
      rcases hcache : (cache.getOrCreate p inUse).run v with ⟨⟨cache₁, e | context⟩, v₁⟩
      · rw [hcache] at h
        cases h
      · rw [hcache] at h
        obtain ⟨hresult, rfl⟩ := Prod.mk.inj h
        obtain ⟨rfl, hkeys⟩ := Prod.mk.inj hresult
        exact ⟨p, context, hp, hcache, hkeys⟩

theorem exists_keygen {c : SchemeConfig} {cache cache' : ContextCache} {inUse : Context → Bool}
    {v v' : Vault} {p : Parameters} (hp : Parameters.select kind r c = .ok p)
    (hcache : (cache.getOrCreate p inUse).run v = ((cache', .ok context), v'))
    (hs : context.scheme = kind) {elements : List Nat}
    (he : galoisElements context r.rotationSteps = .ok elements) (fresh : Random) :
    ∃ pub sec, (keygen kind kind r c fresh cache inUse).run v =
      ((cache', .ok (pub, sec)), v') ∧ Paired context r pub sec := by
  obtain ⟨pub, sec, hkeys⟩ := exists_generateKeys hs he (c.random fresh)
  refine ⟨pub, sec, ?_, paired_generateKeys hkeys⟩
  unfold keygen
  rw [if_neg (by simp), hp]
  dsimp only
  rw [StateT.run_bind, hcache]
  change ((cache', generateKeys kind context r (c.random fresh)), v') = _
  rw [hkeys]

end CipherGraph

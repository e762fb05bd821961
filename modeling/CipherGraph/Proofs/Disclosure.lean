import CipherGraph.Proofs.Sections
import CipherGraph.Proofs.TypeSafety

/-! # What a bundle discloses

The bytes of a bundle depend on the encryption parameters and on the granted material only. Two
writings under the same grants give the same bytes as soon as they agree on that much, whatever
else was at hand.
-/

namespace CipherGraph

variable {kind : SchemeKind} {m m' : Material kind} {f : Grants} {e e' : Envelope}

/-- Material that agrees on the encryption parameters and on everything granted. -/
structure Material.AgreeOn (f : Grants) (m m' : Material kind) : Prop where
  parameters : m.parameters? = m'.parameters?
  graph : f.nodes = true → m.graphRecord? = m'.graphRecord?
  group : f.nodes = true → m.groupRecord? = m'.groupRecord?
  requirements : f.keyGeneration = true → m.requirements? = m'.requirements?
  signature : f.signature = true → m.signature? = m'.signature?
  signatures : f.signature = true → m.signatures? = m'.signatures?
  publicKey : f.carriesPublicKey = true → m.publicKey? = m'.publicKey?
  evaluationKeys : f.execution = true → m.evaluationKeys? = m'.evaluationKeys?
  secretKey : f.decryption = true → m.secretKey? = m'.secretKey?

theorem Material.AgreeOn.sections_eq (h : m.AgreeOn f m') (p : Parameters) :
    m.sections f p = m'.sections f p := by
  simp only [sections, whereGranted_congr h.graph, whereGranted_congr h.group,
    whereGranted_congr h.requirements, whereGranted_congr h.signature,
    whereGranted_congr h.signatures, whereGranted_congr h.publicKey,
    whereGranted_congr h.evaluationKeys, whereGranted_congr h.secretKey]

theorem Material.AgreeOn.envelope_eq (h : m.AgreeOn f m') (hw : m.write f = .ok e)
    (hw' : m'.write f = .ok e') : e = e' := by
  obtain ⟨p, hp, -, rfl⟩ := write_ok hw
  obtain ⟨p', hp', -, rfl⟩ := write_ok hw'
  have hparams : p = p' := Option.some.inj ((parameters?_of_checked hp).symm.trans
    (h.parameters.trans (parameters?_of_checked hp')))
  rw [← hparams, h.sections_eq]

theorem Material.agreeOn_secretHalf (hf : f.decryption = false) {secretHalf : Option (Secret kind)}
    (hp : m.parameters? = { m with secretHalf }.parameters?) :
    m.AgreeOn f { m with secretHalf } where
  parameters := hp
  graph _ := rfl
  group _ := rfl
  requirements _ := rfl
  signature _ := rfl
  signatures _ := rfl
  publicKey _ := rfl
  evaluationKeys _ := rfl
  secretKey h := absurd (hf.symm.trans h) (by simp)

theorem Material.agreeOn_evaluationKeys (hf : f.execution = false) {p p' : Public kind}
    (hm : m.publicHalf = some p) (hkey : p.key = p'.key)
    (hparams : p.context.params = p'.context.params) :
    m.AgreeOn f { m with publicHalf := some p' } where
  parameters := by simp [parameters?, hm, hparams]
  graph _ := rfl
  group _ := rfl
  requirements _ := rfl
  signature _ := rfl
  signatures _ := rfl
  publicKey _ := by simp [publicKey?, hm, hkey]
  evaluationKeys h := absurd (hf.symm.trans h) (by simp)
  secretKey _ := rfl

theorem Material.agreeOn_publicHalf (hx : f.execution = false) (he : f.encryption = false)
    {publicHalf : Option (Public kind)}
    (hp : m.parameters? = { m with publicHalf }.parameters?) :
    m.AgreeOn f { m with publicHalf } where
  parameters := hp
  graph _ := rfl
  group _ := rfl
  requirements _ := rfl
  signature _ := rfl
  signatures _ := rfl
  publicKey h := by simp [Grants.carriesPublicKey, hx, he] at h
  evaluationKeys h := absurd (hx.symm.trans h) (by simp)
  secretKey _ := rfl

theorem Material.agreeOn_compiled (hn : f.nodes = false) (hk : f.keyGeneration = false)
    (hs : f.signature = false) (compiled : Option Compilation) (counters : IdCounters) :
    m.AgreeOn f { m with compiled, counters } where
  parameters := rfl
  graph h := absurd (hn.symm.trans h) (by simp)
  group h := absurd (hn.symm.trans h) (by simp)
  requirements h := absurd (hk.symm.trans h) (by simp)
  signature h := absurd (hs.symm.trans h) (by simp)
  signatures h := absurd (hs.symm.trans h) (by simp)
  publicKey _ := rfl
  evaluationKeys _ := rfl
  secretKey _ := rfl

/-- Two bundles written under the same grants are the same bytes if the material agrees on the
parameters and on what is granted. Each grant withheld in turn: without decryption the secret half
leaves no trace, without execution the evaluation keys leave none, without execution and
encryption the public half leaves none, and without nodes, requirements and signature the
compilation leaves none. -/
theorem bundle_discloses_only_granted (hw : m.write f = .ok e) :
    (∀ m' e', m.AgreeOn f m' → m'.write f = .ok e' → e'.toBytes = e.toBytes) ∧
    (f.decryption = false → ∀ secretHalf e', m.parameters? = { m with secretHalf }.parameters? →
      { m with secretHalf }.write f = .ok e' → e'.toBytes = e.toBytes) ∧
    (f.execution = false → ∀ p p' e', m.publicHalf = some p → p.key = p'.key →
      p.context.params = p'.context.params →
      { m with publicHalf := some p' }.write f = .ok e' → e'.toBytes = e.toBytes) ∧
    (f.execution = false → f.encryption = false → ∀ publicHalf e',
      m.parameters? = { m with publicHalf }.parameters? →
      { m with publicHalf }.write f = .ok e' → e'.toBytes = e.toBytes) ∧
    (f.nodes = false → f.keyGeneration = false → f.signature = false → ∀ compiled counters e',
      { m with compiled, counters }.write f = .ok e' → e'.toBytes = e.toBytes) := by
  have same {m' : Material kind} {e' : Envelope} (hagree : m.AgreeOn f m')
      (hw' : m'.write f = .ok e') : e'.toBytes = e.toBytes := by
    rw [hagree.envelope_eq hw hw']
  exact ⟨fun _ _ => same, fun hf _ _ hp => same (Material.agreeOn_secretHalf hf hp),
    fun hf _ _ _ hm hkey hp => same (Material.agreeOn_evaluationKeys hf hm hkey hp),
    fun hx he _ _ hp => same (Material.agreeOn_publicHalf hx he hp),
    fun hn hk hs _ _ _ => same (Material.agreeOn_compiled hn hk hs _ _)⟩

def byteContext : Context := ⟨0, .bitwise 8⟩

def ownerSecret : Secret .bitwise := ⟨byteContext, ⟨List.replicate 32 7⟩, rfl⟩

/-- The material of a key owner of the compiled difference. -/
def ownerMaterial : Material .bitwise where
  publicHalf := some ⟨byteContext, ownerSecret.key.publicKey,
    some ⟨ownerSecret.key.keyId, true, []⟩, rfl, decide_eq_true rfl, by rintro _ ⟨⟩; rfl⟩
  secretHalf := some ownerSecret
  compiled := some (.graph gateDifference)
  counters := ⟨[6]⟩

/-- The fingerprints of the halves are equal by definition, so that no digest is computed. -/
theorem write_ownerMaterial (f : Grants) :
    ownerMaterial.write f =
      .ok (Envelope.wrap .keyBundle .bitwise (ownerMaterial.sections f (.bitwise 8))) := by
  have hshared : BundleSections.sharedParameters ownerMaterial.publicHalf
      ownerMaterial.secretHalf = .ok (.bitwise 8) := if_pos ⟨rfl, rfl⟩
  have hchecked : ownerMaterial.checked = .ok (.bitwise 8) := by
    rw [Material.checked, hshared]
    rfl
  exact Material.write_of_checked hchecked
    (by simp [Material.demands, ownerMaterial, Material.evaluationKeys?])

/-- What the computing party of the difference is given does not tell whether the secret key was
at hand. -/
theorem computeServer_bundle_hides_secret :
    ∃ e e', ownerMaterial.write .computeServer = .ok e ∧
      { ownerMaterial with secretHalf := none }.write .computeServer = .ok e' ∧
        e'.toBytes = e.toBytes := by
  obtain ⟨-, hsecret, -⟩ := bundle_discloses_only_granted (write_ownerMaterial .computeServer)
  exact ⟨_, _, write_ownerMaterial _, rfl, hsecret rfl none _ rfl rfl⟩

end CipherGraph

import CipherGraph.Blob.Bundle
import CipherGraph.Proofs.Computation

/-! # What a bundle is made from

A bundle is written from whatever is at hand: halves of a key pair, a compilation, and the
counters of its id spaces. Writing it checks that the halves belong together, then the scheme of
the compilation, then that all granted material is there; each section is a function of its own
material alone.
-/

namespace CipherGraph

variable {kind : SchemeKind}

/-- All that a bundle may be written from. -/
structure Material (kind : SchemeKind) where
  publicHalf : Option (Public kind)
  secretHalf : Option (Secret kind)
  compiled : Option Compilation
  counters : IdCounters

def whereGranted {α : Type} (granted : Bool) (material : Option α) : Option α :=
  if granted then material else none

@[simp] theorem whereGranted_true {α : Type} (material : Option α) :
    whereGranted true material = material := rfl

@[simp] theorem whereGranted_false {α : Type} (material : Option α) :
    whereGranted false material = none := rfl

theorem whereGranted_congr {α : Type} {granted : Bool} {a b : Option α}
    (h : granted = true → a = b) : whereGranted granted a = whereGranted granted b := by
  cases granted with
  | true => exact h rfl
  | false => rfl

theorem whereGranted_or {α : Type} (a b : Bool) (material : Option α) :
    (whereGranted a material).or (whereGranted b material) = whereGranted (b || a) material := by
  cases a <;> cases b <;> simp

/-- Refuses to go on without some material. -/
def demand (what : BundleMaterial) (lacking : Bool) : Except BlobError Unit :=
  if lacking then .error (.notSupplied what) else .ok ()

theorem demand_twice {α : Type} (what : BundleMaterial) (lacking : Bool)
    (k : Except BlobError α) :
    (demand what lacking >>= fun _ => demand what lacking >>= fun _ => k) =
      demand what lacking >>= fun _ => k := by
  cases lacking <;> rfl

/-- Demands are met together if and only if none is lacking. -/
theorem forM_demand_eq_ok {l : List (BundleMaterial × Bool)} {u : Unit} :
    (forM l fun d => demand d.1 d.2) = .ok u ↔ ∀ d ∈ l, d.2 = false := by
  induction l with
  | nil => simp [pure, Except.pure]
  | cons d l ih =>
    obtain ⟨what, lacking⟩ := d
    cases lacking <;> simp [demand, bind, Except.bind] at ih ⊢
    exact ih

/-- Otherwise the first that is lacking is reported. -/
theorem forM_demand_eq_error {l : List (BundleMaterial × Bool)} :
    (∃ what, (forM l fun d => demand d.1 d.2) = .error (.notSupplied what)) ↔
      ∃ d ∈ l, d.2 = true := by
  induction l with
  | nil => simp [pure, Except.pure]
  | cons d l ih =>
    obtain ⟨what, lacking⟩ := d
    cases lacking <;> simp [demand, bind, Except.bind] at ih ⊢
    exact ih

theorem BundleSections.whenGranted_eq {α β : Type} (granted : Bool) (what : BundleMaterial)
    (source : Option α) (fill : α → Option β) :
    whenGranted granted what source fill = do
      demand what (granted && source.isNone)
      return whereGranted granted (source.bind fill) := by
  cases granted <;> cases source <;> rfl

namespace Material

def write (m : Material kind) (f : Grants) : Except BlobError Envelope :=
  KeyBundle.write m.publicHalf m.secretHalf m.compiled f m.counters

def graphRecord? (m : Material kind) : Option GraphRecord :=
  m.compiled.bind (·.graphRecord? m.counters)

def groupRecord? (m : Material kind) : Option GroupRecord :=
  m.compiled.bind (·.groupRecord? m.counters)

def signature? (m : Material kind) : Option Signature := m.compiled.bind (·.signature?)

def signatures? (m : Material kind) : Option (OrderedMap String Signature) :=
  m.compiled.bind (·.signatures?)

def requirements? (m : Material kind) : Option KeyRequirements :=
  m.compiled.bind (some ·.requirements)

def publicKey? (m : Material kind) : Option PublicKey := m.publicHalf.bind (some ·.key)

def evaluationKeys? (m : Material kind) : Option EvaluationKeys :=
  m.publicHalf.bind (·.evaluationKeys)

def secretKey? (m : Material kind) : Option SecretKey := m.secretHalf.bind (some ·.key)

/-- The encryption parameters, which either half supplies. -/
def parameters? (m : Material kind) : Option Parameters :=
  (m.publicHalf.map (·.context.params)).or (m.secretHalf.map (·.context.params))

def sections (m : Material kind) (f : Grants) (p : Parameters) : BundleSections where
  grants := f
  params := p
  graph := whereGranted f.nodes m.graphRecord?
  group := whereGranted f.nodes m.groupRecord?
  requirements := whereGranted f.keyGeneration m.requirements?
  signature := whereGranted f.signature m.signature?
  signatures := whereGranted f.signature m.signatures?
  publicKey := whereGranted f.carriesPublicKey m.publicKey?
  evaluationKeys := whereGranted f.execution m.evaluationKeys?
  secretKey := whereGranted f.decryption m.secretKey?

/-- The material looked for, in this order, and whether it is granted but not at hand. -/
def demands (m : Material kind) (f : Grants) : List (BundleMaterial × Bool) :=
  [(.nodes, f.nodes && m.compiled.isNone), (.keyGeneration, f.keyGeneration && m.compiled.isNone),
    (.signature, f.signature && m.compiled.isNone),
    (.encryption, f.encryption && m.publicHalf.isNone),
    (.execution, f.execution && m.publicHalf.isNone),
    (.evaluationKeys, f.execution && m.evaluationKeys?.isNone),
    (.decryption, f.decryption && m.secretHalf.isNone)]

/-- The parameters, if the halves and the compilation belong together. -/
def checked (m : Material kind) : Except BlobError Parameters := do
  let p ← BundleSections.sharedParameters m.publicHalf m.secretHalf
  BundleSections.checkScheme kind m.compiled
  return p

/-- A bundle is written in three steps: all checks, all demands, all sections. -/
theorem write_eq (m : Material kind) (f : Grants) :
    m.write f = do
      let p ← m.checked
      forM (m.demands f) fun d => demand d.1 d.2
      return Envelope.wrap .keyBundle kind (m.sections f p) := by
  simp only [write, KeyBundle.write, BundleSections.ofMaterial, checked, demands, sections,
    BundleSections.whenGranted_eq, bind_assoc, pure_bind, List.forM_cons, List.forM_nil,
    whereGranted_or, demand_twice, Option.bind_fun_some]
  rfl

theorem parameters?_of_checked {m : Material kind} {p : Parameters} (h : m.checked = .ok p) :
    m.parameters? = some p := by
  obtain ⟨q, hq, h⟩ := Except.bind_eq_ok.mp h
  obtain ⟨_, -, h⟩ := Except.bind_eq_ok.mp h
  cases h
  unfold BundleSections.sharedParameters at hq
  split at hq
  · next hp hs =>
    split at hq
    · cases hq
      simp [parameters?, hp]
    · cases hq
  · next hp hs =>
    cases hq
    simp [parameters?, hp]
  · next hp hs =>
    cases hq
    simp [parameters?, hp, hs]
  · cases hq

theorem write_ok {m : Material kind} {f : Grants} {e : Envelope} (h : m.write f = .ok e) :
    ∃ p, m.checked = .ok p ∧ (∀ d ∈ m.demands f, d.2 = false) ∧
      e = Envelope.wrap .keyBundle kind (m.sections f p) := by
  rw [write_eq] at h
  obtain ⟨p, hp, h⟩ := Except.bind_eq_ok.mp h
  obtain ⟨_, hdemands, h⟩ := Except.bind_eq_ok.mp h
  cases h
  exact ⟨p, hp, forM_demand_eq_ok.mp hdemands, rfl⟩

theorem write_of_checked {m : Material kind} {f : Grants} {p : Parameters}
    (hp : m.checked = .ok p) (hdemands : ∀ d ∈ m.demands f, d.2 = false) :
    m.write f = .ok (Envelope.wrap .keyBundle kind (m.sections f p)) := by
  have hall : (forM (m.demands f) fun d => demand d.1 d.2) = .ok () :=
    forM_demand_eq_ok.mpr hdemands
  rw [write_eq, hp]
  exact Except.bind_eq_ok.mpr ⟨p, rfl, Except.bind_eq_ok.mpr ⟨(), hall, rfl⟩⟩

/-- A bundle is written if and only if all checks pass and nothing granted is lacking. -/
theorem exists_write_ok {m : Material kind} {f : Grants} :
    (∃ e, m.write f = .ok e) ↔ (∃ p, m.checked = .ok p) ∧ ∀ d ∈ m.demands f, d.2 = false := by
  constructor
  · rintro ⟨e, h⟩
    obtain ⟨p, hp, hdemands, -⟩ := write_ok h
    exact ⟨⟨p, hp⟩, hdemands⟩
  · rintro ⟨⟨p, hp⟩, hdemands⟩
    exact ⟨_, write_of_checked hp hdemands⟩

theorem checked_eq_notSupplied {m : Material kind} {what : BundleMaterial} :
    m.checked = .error (.notSupplied what) ↔
      what = .parameters ∧ m.publicHalf = none ∧ m.secretHalf = none := by
  have hshared : BundleSections.sharedParameters m.publicHalf m.secretHalf =
      .error (.notSupplied what) ↔
        what = .parameters ∧ m.publicHalf = none ∧ m.secretHalf = none := by
    unfold BundleSections.sharedParameters
    split
    · next hp hs => split <;> simp [hp]
    · next hp hs => simp [hp]
    · next hp hs => simp [hs]
    · next hp hs => simp [hp, hs, eq_comm]
  have hscheme : BundleSections.checkScheme kind m.compiled ≠ .error (.notSupplied what) := by
    unfold BundleSections.checkScheme
    split
    · split <;> simp
    · simp
  rw [← hshared, checked, Except.bind_eq_error]
  refine ⟨fun h => h.elim id ?_, .inl⟩
  rintro ⟨p, -, h⟩
  obtain h | ⟨_, -, h⟩ := Except.bind_eq_error.mp h
  · exact absurd h hscheme
  · cases h

/-- Writing fails for lack of material if and only if both halves are missing, or all that is
there belongs together and something granted is not there. -/
theorem write_eq_notSupplied {m : Material kind} {f : Grants} :
    (∃ what, m.write f = .error (.notSupplied what)) ↔
      (m.publicHalf = none ∧ m.secretHalf = none) ∨
        (∃ p, m.checked = .ok p) ∧ ∃ d ∈ m.demands f, d.2 = true := by
  rw [← forM_demand_eq_error]
  simp only [write_eq, Except.bind_eq_error, checked_eq_notSupplied]
  constructor
  · rintro ⟨what, ⟨-, hnone⟩ | ⟨p, hp, h | ⟨_, -, h⟩⟩⟩
    · exact .inl hnone
    · exact .inr ⟨⟨p, hp⟩, what, h⟩
    · cases h
  · rintro (hnone | ⟨⟨p, hp⟩, what, h⟩)
    · exact ⟨.parameters, .inl ⟨rfl, hnone⟩⟩
    · exact ⟨what, .inr ⟨p, hp, .inl h⟩⟩

end Material

end CipherGraph

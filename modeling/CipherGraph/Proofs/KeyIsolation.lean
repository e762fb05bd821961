import CipherGraph.Proofs.Discipline
import CipherGraph.Proofs.Primitives
import CipherGraph.Proofs.TypeSafety
import CipherGraph.Proofs.Vaults

/-! # Key isolation

Keys are compared when inputs are bound, and from there on every primitive hands on the key of its
operands. So one key rules all ciphertexts that a machine ever holds, and only its secret half opens
the outputs.
-/

namespace CipherGraph

/-- The computation gives ciphertexts of this key and does not fail for its keys. -/
structure Scheme.Bears (S : Scheme) (k : KeyId) (n : Native S.Ciphertext) : Prop where
  avoids : Avoids EvalError.isKeyMismatch n
  keyId : ∀ v c v', Runs n v (.ok c) v' → S.keyId c = k

theorem Scheme.Bears.after {S : Scheme} {k : KeyId} {α : Type} {m : Native α}
    {f : α → Native S.Ciphertext} (hm : Avoids EvalError.isKeyMismatch m)
    (hf : ∀ a, S.Bears k (f a)) : S.Bears k (m >>= f) where
  avoids := hm.bind fun a => (hf a).avoids
  keyId v c v' h := by
    obtain ⟨a, v₁, -, hrest⟩ := runs_bind_ok.mp h
    exact (hf a).keyId v₁ c v' hrest

theorem Scheme.Bears.atNode {S : Scheme} {k : KeyId} {n : Native S.Ciphertext} (h : S.Bears k n)
    (node : NodeId) : Avoids ExecError.isKeyMismatch (n.atNode node) ∧
      ∀ v c v', Runs (n.atNode node) v (.ok c) v' → S.keyId c = k := by
  refine ⟨fun v e v' hr => ?_, fun v c v' hr => h.keyId v c v' (runs_atNode_ok.mp hr)⟩
  obtain ⟨x, hx, he⟩ := runs_atNode.mp hr
  cases x with
  | ok c => cases he
  | error fault =>
    cases he
    exact (fault.isKeyMismatch_atNode node).trans (h.avoids v fault v' hx)

/-- Primitives hand on the key of their ciphertexts, and a decryption asks for the secret half. -/
structure Scheme.Isolates (S : Scheme) : Prop where
  encode : ∀ context slots scaleBits level,
    Spares EvalError.isMisfit (S.encode context slots scaleBits level)
  combine : ∀ op ev a b, S.keyId a = S.keyId b → S.Bears (S.keyId a) (S.combine op ev a b)
  combinePlain : ∀ op ev a b, S.Bears (S.keyId a) (S.combinePlain op ev a b)
  combineLeft : ∀ op ev a b, S.Bears (S.keyId b) (S.combineLeft op ev a b)
  negate : ∀ ev c, S.Bears (S.keyId c) (S.negate ev c)
  rotate : ∀ ev c step, S.Bears (S.keyId c) (S.rotate ev c step)
  decrypt : ∀ {context secret c v}, secret.keyId = S.keyId c → S.isLive c v = true →
    ∃ p, Runs (S.decrypt context secret c) v (.ok p) v
  decrypt_foreign : ∀ {context secret c} v, secret.keyId ≠ S.keyId c →
    Runs (S.decrypt context secret c) v (.error (.keyMismatch secret.keyId (S.keyId c))) v

theorem requireRelin_spares (ev : Evaluator) : Spares EvalError.isKeyMismatch ev.requireRelin :=
  Evaluator.spares_requireRelin (Evaluator.spares_requireKeys rfl) rfl

namespace Packed

variable {τ : Type} {f : τ → τ → τ} {level : Nat} {k : KeyId}

/-- The same for a result that needs no heap. -/
structure Bears (k : KeyId) (x : Except EvalError (PackedCiphertext τ)) : Prop where
  spares : Spares EvalError.isKeyMismatch x
  keyId : ∀ c, x = .ok c → c.keyId = k

theorem bears_ok {c : PackedCiphertext τ} (h : c.keyId = k) : Bears k (.ok c) where
  spares := spares_ok c
  keyId := by
    rintro _ ⟨⟩
    exact h

theorem bears_error {e : EvalError} (h : e.isKeyMismatch = false) :
    Bears k (.error e : Except EvalError (PackedCiphertext τ)) where
  spares := spares_error h
  keyId := nofun

theorem Bears.after {α : Type} {x : Except EvalError α}
    {f : α → Except EvalError (PackedCiphertext τ)} (hx : Spares EvalError.isKeyMismatch x)
    (hf : ∀ a, Bears k (f a)) : Bears k (x >>= f) where
  spares := hx.bind fun a _ => (hf a).spares
  keyId c h := by
    obtain ⟨a, -, h⟩ := Except.bind_eq_ok.mp h
    exact (hf a).keyId c h

theorem bears_zip {a b : PackedCiphertext τ} (h : a.keyId = b.keyId) :
    Bears a.keyId (zip f level a b) := by
  unfold zip sameKey
  rw [if_pos h]
  exact .after (spares_ok ()) fun _ =>
    .after (spares_zipSlots (fun _ => rfl) _ _) fun _ => bears_ok rfl

theorem bears_zipPlain (a : PackedCiphertext τ) (b : PackedPlaintext τ) :
    Bears a.keyId (zipPlain f level a b) :=
  .after (spares_zipSlots (fun _ => rfl) _ _) fun _ => bears_ok rfl

theorem bears_rotate (ev : Evaluator) (c : PackedCiphertext τ) (step : Int) :
    Bears c.keyId (rotate ev c step) :=
  .after (Evaluator.spares_requireRotation (Evaluator.spares_requireKeys rfl) rfl) fun _ =>
    bears_ok rfl

theorem decrypt_of_eq {secret : SecretKey} {c : PackedCiphertext τ} (h : secret.keyId = c.keyId) :
    decrypt secret c = .ok ⟨c.level, c.scaleBits, c.slots⟩ := by
  unfold decrypt sameKey
  rw [if_pos h]
  rfl

theorem decrypt_of_ne {secret : SecretKey} {c : PackedCiphertext τ} (h : secret.keyId ≠ c.keyId) :
    decrypt secret c = .error (.keyMismatch secret.keyId c.keyId) := by
  unfold decrypt sameKey
  rw [if_neg h]
  rfl

end Packed

namespace Exact

open Packed

theorem Bears.liftM {k : KeyId} {x : Except EvalError Ciphertext} (h : Bears k x) :
    Scheme.bfv.Bears k (liftM x) where
  avoids := h.spares.liftM
  keyId _ _ _ hr := h.keyId _ (runs_liftM.mp hr).1.symm

theorem bears_combine (op : Arithmetic) (ev : Evaluator) {a b : Ciphertext}
    (h : a.keyId = b.keyId) : Bears a.keyId (combine op ev a b) := by
  cases op with
  | add => exact bears_zip h
  | sub => exact bears_zip h
  | mul => exact .after (requireRelin_spares ev) fun _ => bears_zip h
  | div => exact bears_error rfl

theorem bears_combinePlain (op : Arithmetic) (ev : Evaluator) (a : Ciphertext) (b : Plaintext) :
    Bears a.keyId (combinePlain op ev a b) := by
  cases op with
  | add => exact bears_zipPlain a b
  | sub => exact bears_zipPlain a b
  | mul => exact bears_zipPlain a b
  | div => exact bears_error rfl

theorem bears_combineLeft (op : Arithmetic) (ev : Evaluator) (a : Plaintext) (b : Ciphertext) :
    Bears b.keyId (combineLeft op ev a b) := by
  cases op with
  | add => exact bears_combinePlain .add ev b a
  | mul => exact bears_combinePlain .mul ev b a
  | sub => exact bears_error rfl
  | div => exact bears_error rfl

theorem decrypt_of_eq {secret : SecretKey} {c : Ciphertext} (h : secret.keyId = c.keyId) :
    decrypt secret c = .ok ⟨0, 0, c.slots⟩ := by
  unfold decrypt
  rw [Packed.decrypt_of_eq h]
  rfl

theorem decrypt_of_ne {secret : SecretKey} {c : Ciphertext} (h : secret.keyId ≠ c.keyId) :
    decrypt secret c = .error (.keyMismatch secret.keyId c.keyId) := by
  unfold decrypt
  rw [Packed.decrypt_of_ne h]
  rfl

end Exact

theorem isolates_bfv : Scheme.bfv.Isolates where
  encode _ _ _ _ := (Packed.spares_checkCount (fun _ => rfl) _ _).bind fun _ _ => spares_ok _
  combine op ev _ _ h := Exact.Bears.liftM (Exact.bears_combine op ev h)
  combinePlain op ev a b := Exact.Bears.liftM (Exact.bears_combinePlain op ev a b)
  combineLeft op ev a b := Exact.Bears.liftM (Exact.bears_combineLeft op ev a b)
  negate _ _ := Exact.Bears.liftM (Packed.bears_ok rfl)
  rotate ev c step := Exact.Bears.liftM (Packed.bears_rotate ev c step)
  decrypt h _ := ⟨_, runs_liftM.mpr ⟨(Exact.decrypt_of_eq h).symm, rfl⟩⟩
  decrypt_foreign _ h := runs_liftM.mpr ⟨(Exact.decrypt_of_ne h).symm, rfl⟩

namespace Approximate

open Packed

theorem Bears.liftM {k : KeyId} {x : Except EvalError Ciphertext} (h : Bears k x) :
    Scheme.ckks.Bears k (liftM x) where
  avoids := h.spares.liftM
  keyId _ _ _ hr := h.keyId _ (runs_liftM.mp hr).1.symm

theorem bears_combine (op : Arithmetic) (ev : Evaluator) {a b : Ciphertext}
    (h : a.keyId = b.keyId) : Bears a.keyId (combine op ev a b) := by
  have hproduct {f : Float → Float → Float} : Bears a.keyId (do
      ev.requireRelin
      Packed.zip f (← rescale (min a.level b.level)) a b) :=
    .after (requireRelin_spares ev) fun _ => .after (spares_rescale fun _ => rfl) fun _ =>
      bears_zip h
  cases op with
  | add => exact bears_zip h
  | sub => exact bears_zip h
  | mul => exact hproduct
  | div => exact hproduct

theorem bears_combinePlain (op : Arithmetic) (a : Ciphertext) (b : Plaintext) :
    Bears a.keyId (combinePlain op a b) := by
  cases op with
  | add => exact bears_zipPlain a b
  | sub => exact bears_zipPlain a b
  | mul => exact .after (spares_rescale fun _ => rfl) fun _ => bears_zipPlain a b
  | div =>
    unfold combinePlain
    dsimp only
    split
    · exact bears_error rfl
    · exact .after (spares_rescale fun _ => rfl) fun _ => bears_zipPlain a b

theorem bears_combineLeft (op : Arithmetic) (a : Plaintext) (b : Ciphertext) :
    Bears b.keyId (combineLeft op a b) := by
  cases op with
  | add => exact bears_combinePlain .add b a
  | mul => exact bears_combinePlain .mul b a
  | sub => exact bears_error rfl
  | div => exact .after (spares_rescale fun _ => rfl) fun _ => bears_zipPlain b a

end Approximate

theorem isolates_ckks : Scheme.ckks.Isolates where
  encode context slots scaleBits level := by
    refine (Packed.spares_checkCount (fun _ => rfl) _ _).bind fun _ _ => ?_
    dsimp only
    split
    · exact spares_error rfl
    · split
      · exact spares_error rfl
      · exact spares_ok _
  combine op ev _ _ h := Approximate.Bears.liftM (Approximate.bears_combine op ev h)
  combinePlain op _ a b := Approximate.Bears.liftM (Approximate.bears_combinePlain op a b)
  combineLeft op _ a b := Approximate.Bears.liftM (Approximate.bears_combineLeft op a b)
  negate _ _ := Approximate.Bears.liftM (Packed.bears_ok rfl)
  rotate ev c step := Approximate.Bears.liftM (Packed.bears_rotate ev c step)
  decrypt h _ := ⟨_, runs_liftM.mpr ⟨(Packed.decrypt_of_eq h).symm, rfl⟩⟩
  decrypt_foreign _ h := runs_liftM.mpr ⟨(Packed.decrypt_of_ne h).symm, rfl⟩

namespace Gates

theorem bears_alloc (context : Context) (k : KeyId) (x : UInt8) :
    Scheme.bitwise.Bears k (alloc context k x) where
  avoids := avoids_alloc (fun _ => rfl) context k x
  keyId _ _ _ h := (runs_alloc_ok h).1

theorem bears_gate (ev : Evaluator) (c : Ciphertext) (f : UInt8 → UInt8) :
    Scheme.bitwise.Bears c.keyId (gate ev c f) :=
  .after (Evaluator.spares_requireKeys rfl).liftM fun _ =>
    .after (avoids_value (fun _ => rfl) c) fun _ => bears_alloc _ _ _

theorem bears_combine (op : Arithmetic) (ev : Evaluator) {a b : Ciphertext}
    (h : a.keyId = b.keyId) : Scheme.bitwise.Bears a.keyId (combine op ev a b) := by
  refine .after ?_ fun _ => bears_gate ev a _
  unfold second sameKey
  rw [if_pos h]
  exact (spares_ok ()).liftM.bind fun _ => avoids_value (fun _ => rfl) b

theorem bears_combinePlain (op : Arithmetic) (ev : Evaluator) (a : Ciphertext) (b : Plaintext) :
    Scheme.bitwise.Bears a.keyId (combinePlain op ev a b) := by
  unfold combinePlain
  split
  · exact .after (avoids_throw rfl) fun _ => bears_gate ev a _
  · exact bears_gate ev a _

theorem bears_combineLeft (op : Arithmetic) (ev : Evaluator) (a : Plaintext) (b : Ciphertext) :
    Scheme.bitwise.Bears b.keyId (combineLeft op ev a b) := by
  cases op with
  | add => exact bears_combinePlain .add ev b a
  | mul => exact bears_combinePlain .mul ev b a
  | sub => exact bears_gate ev b _
  | div => exact bears_gate ev b _

end Gates

theorem isolates_bitwise : Scheme.bitwise.Isolates where
  encode context slots _ _ := Gates.spares_encode (fun _ => rfl) context slots
  combine op ev _ _ h := Gates.bears_combine op ev h
  combinePlain := Gates.bears_combinePlain
  combineLeft := Gates.bears_combineLeft
  negate ev c := Gates.bears_gate ev c _
  rotate ev c _ := Gates.bears_gate ev c _
  decrypt {_ secret c v} h hlive := by
    obtain ⟨cell, hcell⟩ := Option.isSome_iff_exists.mp hlive
    have hsame : sameKey secret.keyId c.keyId = .ok () := if_pos h
    refine ⟨⟨cell.value⟩, runs_bind_ok.mpr ⟨(), v, runs_liftM.mpr ⟨hsame.symm, rfl⟩, ?_⟩⟩
    exact runs_bind_ok.mpr ⟨_, v, Gates.runs_value_ok.mpr ⟨⟨cell, hcell, rfl⟩, rfl⟩,
      runs_pure.mpr ⟨rfl, rfl⟩⟩
  decrypt_foreign {_ secret c} v h := by
    have hsame : sameKey secret.keyId c.keyId = .error (.keyMismatch secret.keyId c.keyId) :=
      if_neg h
    exact runs_bind_error.mpr (.inl (runs_liftM.mpr ⟨hsame.symm, rfl⟩))

theorem isolates (kind : SchemeKind) : (Command.schemeOf kind).Isolates := by
  cases kind with
  | ckks => exact isolates_ckks
  | bfv => exact isolates_bfv
  | bitwise => exact isolates_bitwise

section Executors

variable {S : Scheme} {keys : Public S.kind} {g : Graph} {inputs : SchemeValuation S}
  {m m' : Machine S} {v v' : Vault}

/-- Ciphertexts belong to one key, and nothing fails for its keys. -/
def keyDiscipline (hS : S.Isolates) (k : KeyId) : Discipline S Unit where
  Holds _ n Q := Avoids ExecError.isKeyMismatch n ∧ ∀ v a v', Runs n v (.ok a) v' → Q a ()
  Fits _ c := S.keyId c = k
  mono _ h := h
  pure h := by
    refine ⟨avoids_pure _, fun v a v' hr => ?_⟩
    cases (runs_pure.mp hr).1
    exact h
  throw h :=
    ⟨avoids_throw (ExecError.isMisfit_eq_false.mp h).1,
      fun _ _ _ hr => nomatch (runs_throw.mp hr).1⟩
  bind hm hf := by
    constructor
    · exact hm.1.bind_of_runs fun a v v' ha => (hf a () le_rfl (hm.2 v a v' ha)).1
    · intro v b v' hr
      obtain ⟨a, v₁, ha, hr⟩ := runs_bind_ok.mp hr
      exact (hf a () le_rfl (hm.2 v a v₁ ha)).2 v₁ b v' hr
  encode := hS.encode
  combine op ev node ha hb := ha ▸ (hS.combine op ev _ _ (ha.trans hb.symm)).atNode node
  combinePlain op ev b node ha := ha ▸ (hS.combinePlain op ev _ b).atNode node
  combineLeft op ev a node hb := hb ▸ (hS.combineLeft op ev a _).atNode node
  negate ev node hc := hc ▸ (hS.negate ev _).atNode node
  rotate ev step node hc := hc ▸ (hS.rotate ev _ step).atNode node

/-- An executor for these keys and this graph, whatever is bound to it, visited and freed, and in
whatever order. A binding or a visit that fails leaves it where it stopped. -/
inductive Driven (keys : Public S.kind) (g : Graph) : Machine S → Prop where
  | create {m : Machine S} (h : Machine.create g keys = .ok m) : Driven keys g m
  | bindAll {m : Machine S} (h : Driven keys g m) (l : List (String × Value S)) :
      Driven keys g (m.bindAll l).1
  | visit {m m' : Machine S} {node : NodeId} {v v' : Vault} (h : Driven keys g m)
      (hvisit : Runs (m.visit node) v (.ok m') v') : Driven keys g m'
  | free {m : Machine S} (h : Driven keys g m) (node : NodeId) : Driven keys g (m.free node)

theorem Machine.bindAll_invariant {P : Machine S → Prop} (l : List (String × Value S)) (hm : P m)
    (hbind : ∀ m node x, P m → (∀ c, x = .cipher c → S.keyId c = m.keys.keyId) →
      P (m.put node x)) : P (m.bindAll l).1 := by
  induction l generalizing m with
  | nil => exact hm
  | cons e l ih =>
    unfold bindAll
    split
    · next m₁ h₁ =>
      obtain ⟨node, -, hkey, rfl⟩ := bind_eq_ok.mp h₁
      exact ih (hbind m node e.2 hm hkey)
    · exact hm

theorem Driven.freeOperands (h : Driven keys g m) (left : Machine.Remaining)
    (operands : List NodeId) : Driven keys g (m.freeOperands left operands).1 := by
  induction operands generalizing m left with
  | nil => exact h
  | cons operand rest ih =>
    unfold Machine.freeOperands
    split
    · exact ih h left
    · dsimp only
      split
      · exact ih (h.free operand) _
      · exact ih h _

theorem Driven.passes {left left' : Machine.Remaining} {order : List NodeId} (h : Driven keys g m)
    (hpass : Machine.Passes m left v order m' left' v') : Driven keys g m' := by
  induction hpass with
  | nil => exact h
  | cons hvisit _ ih => exact ih ((h.visit hvisit).freeOperands ..)

theorem Starts.driven (h : Starts keys g inputs m) : Driven keys g m := by
  have hbound := (Driven.create (create_ok.mpr ⟨h.fits, rfl⟩)).bindAll inputs.entries
  rwa [h.bound] at hbound

theorem Occurs.driven (h : Occurs keys g inputs v m) : Driven keys g m := by
  cases h with
  | passed hstart _ hpass => exact hstart.driven.passes hpass
  | visited hstart _ hpass hvisit _ =>
    exact ((hstart.driven.passes hpass).visit hvisit).freeOperands ..

variable (hS : S.Isolates)

include hS

theorem Driven.accepts (h : Driven keys g m) :
    m.keys = keys ∧ (keyDiscipline hS keys.keyId).Accepts () m := by
  induction h with
  | create h =>
    obtain ⟨-, rfl⟩ := create_ok.mp h
    exact ⟨rfl, by simp [Discipline.Accepts]⟩
  | bindAll _ l ih =>
    refine Machine.bindAll_invariant (P := fun m =>
      m.keys = keys ∧ (keyDiscipline hS keys.keyId).Accepts () m) l ih fun m node x hm hkey => ?_
    exact ⟨hm.1, hm.2.put fun c hc => (hkey c hc).trans (congrArg Public.keyId hm.1)⟩
  | visit _ hvisit ih =>
    exact ⟨(Machine.visit_frame hvisit).2.trans ih.1,
      (Discipline.holds_visit ih.2 _).2 _ _ _ hvisit⟩
  | free _ node ih => exact ⟨ih.1, ih.2.trims (Machine.trims_free _ node)⟩

theorem Driven.keyId (h : Driven keys g m) {id : NodeId} {c : S.Ciphertext}
    (hc : m.values.find? id = some (.cipher c)) : S.keyId c = keys.keyId :=
  (h.accepts hS).2 id _ hc c rfl

theorem Driven.avoids_visit (h : Driven keys g m) (node : NodeId) :
    Avoids ExecError.isKeyMismatch (m.visit node) :=
  (Discipline.holds_visit (h.accepts hS).2 node).1

omit hS in
theorem Machine.keyId_of_bindAll {l : List (String × Value S)} {name : String} {c : S.Ciphertext}
    (h : m.bindAll l = (m', .ok ())) (hmem : (name, .cipher c) ∈ l) :
    S.keyId c = m.keys.keyId := by
  induction l generalizing m with
  | nil => cases hmem
  | cons e l ih =>
    unfold bindAll at h
    split at h
    · next m₁ h₁ =>
      obtain ⟨node, -, hkey, rfl⟩ := bind_eq_ok.mp h₁
      rcases List.mem_cons.mp hmem with heq | hmem
      · cases heq
        exact hkey c rfl
      · have hrest := ih h hmem
        exact hrest
    · cases h

omit hS in
/-- With a ciphertext of another key among its inputs, an execution does not start. -/
theorem execute_foreign {name : String} {c : S.Ciphertext}
    (hmem : (name, .cipher c) ∈ inputs.entries) (hkey : S.keyId c ≠ keys.keyId) (v : Vault) :
    ∃ fault, Runs (execute S keys g inputs) v (.error (.configuration fault)) v := by
  unfold execute
  cases hcreate : Machine.create g keys with
  | error e =>
    obtain ⟨fault, rfl⟩ := create_error hcreate
    exact ⟨fault, runs_bind_error.mpr (.inl (runs_liftM.mpr ⟨rfl, rfl⟩))⟩
  | ok m =>
    obtain ⟨-, rfl⟩ := create_ok.mp hcreate
    rcases hbound : (⟨g, keys, ∅⟩ : Machine S).bindAll inputs.entries with ⟨m', e | _⟩
    · obtain ⟨fault, rfl⟩ := Machine.bindAll_error hbound
      refine ⟨fault, (runs_bind_of_ok (runs_liftM.mpr ⟨rfl, rfl⟩)).mpr ?_⟩
      simp only [hbound]
      exact runs_throw.mpr ⟨rfl, rfl⟩
    · exact absurd (Machine.keyId_of_bindAll hbound hmem) hkey

omit hS in
theorem Machine.live_of_collect {l : List (String × NodeId)} {found out : SchemeValuation S}
    (h : m.collect v l found = (out, .ok ())) (hfound : found.Live v) : out.Live v := by
  induction l generalizing found with
  | nil =>
    cases h
    exact hfound
  | cons e l ih =>
    obtain ⟨name, node⟩ := e
    have hput {x : Value S} (hx : x.Live v) : SchemeValuation.Live (found.insert name x) v := by
      intro other y hy
      rcases OrderedMap.mem_entries_insert hy with heq | hy
      · cases heq
        exact hx
      · exact hfound other y hy
    unfold collect at h
    split at h
    · cases h
    · next c _ =>
      split at h
      · next hlive => exact ih h (hput hlive)
      · cases h
    · next x hcipher _ =>
      refine ih h (hput ?_)
      cases x with
      | cipher c => exact absurd rfl (hcipher c)
      | plain | raw => trivial

theorem execute_outputs {out : SchemeValuation S}
    (h : Runs (execute S keys g inputs) v (.ok out) v') :
    out.Live v' ∧ ∀ name c, (name, .cipher c) ∈ out.entries → S.keyId c = keys.keyId := by
  obtain ⟨m, hm, -, hout⟩ := execute_occurs h
  refine ⟨Machine.live_of_collect hout (by simp [SchemeValuation.Live]), fun name c hc => ?_⟩
  obtain ⟨node, -, hnode⟩ := (Machine.outputs_ok hout).1 name _ hc
  exact hm.driven.keyId hS hnode

theorem openValue_of_key {secret : Secret S.kind} {x : Value S}
    (hkey : ∀ c, x = .cipher c → S.keyId c = secret.keyId) (hlive : x.Live v) :
    ∃ slots, Runs (openValue S secret x) v (.ok slots) v := by
  cases x with
  | cipher c =>
    obtain ⟨p, hp⟩ : ∃ p, Runs (S.decrypt secret.context secret.key c) v (.ok p) v :=
      hS.decrypt (hkey c rfl).symm hlive
    exact ⟨_, runs_bind_ok.mpr ⟨p, v, runs_alone_ok.mpr hp, runs_pure.mpr ⟨rfl, rfl⟩⟩⟩
  | plain p => exact ⟨_, runs_pure.mpr ⟨rfl, rfl⟩⟩
  | raw slots => exact ⟨_, runs_pure.mpr ⟨rfl, rfl⟩⟩

theorem openValue_foreign {secret : Secret S.kind} {c : S.Ciphertext}
    (hkey : secret.keyId ≠ S.keyId c) (v : Vault) :
    ∃ fault, Runs (openValue S secret (.cipher c)) v (.error (.configuration fault)) v :=
  ⟨_, runs_bind_error.mpr (.inl (runs_alone.mpr ⟨_, hS.decrypt_foreign v hkey, rfl⟩))⟩

omit hS in
/-- Steps leave the state alone, and those that fail do so for their configuration. If one is bound
to fail, so is the whole. -/
theorem runs_foldlM_configuration {α β : Type} {f : β → α → Exec β} {l : List α}
    (hall : ∀ b, ∀ a ∈ l, (∃ b', Runs (f b a) v (.ok b') v) ∨
      ∃ fault, Runs (f b a) v (.error (.configuration fault)) v)
    (hone : ∃ a ∈ l, ∀ b, ∃ fault, Runs (f b a) v (.error (.configuration fault)) v) (b : β) :
    ∃ fault, Runs (l.foldlM f b) v (.error (.configuration fault)) v := by
  induction l generalizing b with
  | nil => simp at hone
  | cons a l ih =>
    rw [List.foldlM_cons]
    rcases hall b a List.mem_cons_self with ⟨b', hok⟩ | ⟨fault, herror⟩
    · obtain ⟨k, hk, hfails⟩ := hone
      rcases List.mem_cons.mp hk with rfl | hk
      · obtain ⟨_, herror⟩ := hfails b
        cases (hok.unique herror).1
      · obtain ⟨fault, herror⟩ := ih (fun b a ha => hall b a (List.mem_cons_of_mem _ ha))
          ⟨k, hk, hfails⟩ b'
        exact ⟨fault, (runs_bind_of_ok hok).mpr herror⟩
    · exact ⟨fault, runs_bind_error.mpr (.inl herror)⟩

def decryptEntry (secret : Secret S.kind) (sig : Signature) (found : Valuation)
    (e : String × Value S) : Exec Valuation := do
  if let some expected := sig.outputs.find? e.1 then
    if expected ≠ e.2.type then
      throw (.configuration (.outputClass e.1 expected e.2.type))
  let slots ← openValue S secret e.2
  return found.insert e.1 (Slot.toPlain (slots.take sig.width))

omit hS in
theorem decrypt_eq_foldlM (secret : Secret S.kind) (outputs : SchemeValuation S)
    (sig : Signature) :
    decrypt S secret outputs sig = outputs.entries.foldlM (decryptEntry secret sig) ∅ := rfl

omit hS in
theorem runs_decryptEntry {secret : Secret S.kind} {sig : Signature} {e : String × Value S}
    {r : Except ExecError (List S.Slot)} (h : Runs (openValue S secret e.2) v r v)
    (found : Valuation) :
    (∃ fault, Runs (decryptEntry secret sig found e) v (.error (.configuration fault)) v) ∨
      Runs (decryptEntry secret sig found e) v
        (r.map fun slots => found.insert e.1 (Slot.toPlain (slots.take sig.width))) v := by
  have hkept : Runs (do
      let slots ← openValue S secret e.2
      return found.insert e.1 (Slot.toPlain (slots.take sig.width))) v
      (r.map fun slots => found.insert e.1 (Slot.toPlain (slots.take sig.width))) v := by
    cases r with
    | ok slots => exact (runs_bind_of_ok h).mpr (runs_pure.mpr ⟨rfl, rfl⟩)
    | error e => exact runs_bind_error.mpr (.inl h)
  unfold decryptEntry
  split
  · split
    · exact .inl ⟨_, runs_throw_bind.mpr ⟨rfl, rfl⟩⟩
    · exact .inr hkept
  · exact .inr hkept

/-- A decryption fails at the first ciphertext of another key, if nothing has failed before. -/
theorem decrypt_foreign {secret : Secret S.kind} {outputs : SchemeValuation S} {sig : Signature}
    (hkey : ∀ name c, (name, .cipher c) ∈ outputs.entries → secret.keyId ≠ S.keyId c)
    (hcipher : ∃ name c, (name, .cipher c) ∈ outputs.entries) (v : Vault) :
    ∃ fault, Runs (decrypt S secret outputs sig) v (.error (.configuration fault)) v := by
  have hforeign (name : String) (c : S.Ciphertext) (hc : (name, .cipher c) ∈ outputs.entries)
      (found : Valuation) : ∃ fault, Runs (decryptEntry secret sig found (name, .cipher c)) v
        (.error (.configuration fault)) v := by
    obtain ⟨fault, hopen⟩ := openValue_foreign hS (hkey name c hc) v
    exact (runs_decryptEntry (e := (name, .cipher c)) hopen found).elim id fun h => ⟨fault, h⟩
  obtain ⟨name, c, hmem⟩ := hcipher
  rw [decrypt_eq_foldlM]
  refine runs_foldlM_configuration (fun found e he => ?_) ⟨_, hmem, hforeign name c hmem⟩ ∅
  obtain ⟨other, x⟩ := e
  have hclear (slots : List S.Slot) (h : Runs (openValue S secret x) v (.ok slots) v) :
      (∃ b, Runs (decryptEntry secret sig found (other, x)) v (.ok b) v) ∨
        ∃ fault, Runs (decryptEntry secret sig found (other, x)) v
          (.error (.configuration fault)) v := by
    obtain hfault | hkept := runs_decryptEntry (e := (other, x)) h found
    · exact .inr hfault
    · exact .inl ⟨_, hkept⟩
  cases x with
  | cipher c => exact .inr (hforeign other c he found)
  | plain p => exact hclear (S.decode secret.context p) (runs_pure.mpr ⟨rfl, rfl⟩)
  | raw slots => exact hclear slots (runs_pure.mpr ⟨rfl, rfl⟩)

end Executors

open Command in
/-- A ciphertext of another key among the inputs keeps an execution from starting. Whatever an
executor is made to bind, visit and free, its visits do not fail for keys, and all its ciphertexts
belong to its key; so do the outputs. These are opened by a secret half of that key, as long as they
are live, and never by another if a ciphertext is among them. -/
theorem execution_isolates_keys (kind : SchemeKind) (keys : Public (schemeOf kind).kind) (g : Graph)
    (inputs : SchemeValuation (schemeOf kind)) (v : Vault) :
    (∀ name c, (name, .cipher c) ∈ inputs.entries → (schemeOf kind).keyId c ≠ keys.keyId →
      ∃ fault, Runs (execute (schemeOf kind) keys g inputs) v (.error (.configuration fault)) v) ∧
    (∀ m, Occurs keys g inputs v m → Driven keys g m) ∧
    (∀ m, Driven keys g m →
      (∀ node, Avoids ExecError.isKeyMismatch (m.visit node)) ∧
      ∀ id c, m.values.find? id = some (.cipher c) → (schemeOf kind).keyId c = keys.keyId) ∧
    ∀ out v', Runs (execute (schemeOf kind) keys g inputs) v (.ok out) v' →
      out.Live v' ∧
      (∀ name c, (name, .cipher c) ∈ out.entries → (schemeOf kind).keyId c = keys.keyId) ∧
      ∀ (secret : Secret (schemeOf kind).kind) sig,
        (∀ name x, (name, x) ∈ out.entries → ∀ type, sig.outputs.find? name = some type →
          type = x.type) →
        (secret.keyId = keys.keyId → ∀ w, out.Live w →
          ∃ plain, Runs (decrypt (schemeOf kind) secret out sig) w (.ok plain) w) ∧
        (secret.keyId ≠ keys.keyId → (∃ name c, (name, .cipher c) ∈ out.entries) → ∀ w,
          ∃ fault, Runs (decrypt (schemeOf kind) secret out sig) w
            (.error (.configuration fault)) w) := by
  have hS := isolates kind
  refine ⟨fun name c hc hkey => execute_foreign hc hkey v, fun m hm => hm.driven,
    fun m hm => ⟨hm.avoids_visit hS, fun id c hc => hm.keyId hS hc⟩, fun out v' hrun => ?_⟩
  obtain ⟨hlive, hkeys⟩ := execute_outputs hS hrun
  refine ⟨hlive, hkeys, fun secret sig hclass => ⟨fun hkey w hw => ?_, fun hkey hcipher w => ?_⟩⟩
  · have hopen (name : String) (x : Value (schemeOf kind)) (hx : (name, x) ∈ out.entries) :
        ∃ slots, Runs (openValue (schemeOf kind) secret x) w (.ok slots) w :=
      openValue_of_key hS (fun c hc => (hkeys name c (hc ▸ hx)).trans hkey.symm) (hw name x hx)
    obtain ⟨plain, hplain, -⟩ := decrypt_opened hclass hopen
    exact ⟨plain, hplain⟩
  · exact decrypt_foreign hS (fun name c hc heq => hkey (heq.trans (hkeys name c hc))) hcipher w

def foreignSix : SchemeValuation .bitwise :=
  ⟨[("x", .cipher (Gates.Ciphertext.mk 0 0 1)), ("y", .raw [(9 : UInt8)])]⟩

theorem execution_isolates_keys_gateDifference :
    (∃ fault, Runs (execute .bitwise gateKeys gateDifference.graph foreignSix) vaultOfSix
      (.error (.configuration fault)) vaultOfSix) ∧
    ∃ out v', Runs (execute .bitwise gateKeys gateDifference.graph sixAndNine) vaultOfSix
        (.ok out) v' ∧
      ∀ secret : Secret Scheme.bitwise.kind,
        (secret.keyId = 0 → ∃ plain, Runs (decrypt .bitwise secret out gateDifference.signature) v'
          (.ok plain) v') ∧
        (secret.keyId ≠ 0 → ∃ fault, Runs (decrypt .bitwise secret out gateDifference.signature) v'
          (.error (.configuration fault)) v') := by
  obtain ⟨hforeign, -⟩ := execution_isolates_keys .bitwise gateKeys gateDifference.graph foreignSix
    vaultOfSix
  obtain ⟨-, -, -, houtputs⟩ := execution_isolates_keys .bitwise gateKeys gateDifference.graph
    sixAndNine vaultOfSix
  refine ⟨hforeign "x" _ List.mem_cons_self (by decide), _, _, execute_sixAndNine, fun secret => ?_⟩
  obtain ⟨hlive, -, hdecrypt⟩ := houtputs _ _ execute_sixAndNine
  obtain ⟨hopens, hfails⟩ := hdecrypt secret gateDifference.signature (by
    intro name x hx type htype
    cases List.mem_singleton.mp hx
    cases htype
    rfl)
  exact ⟨fun hkey => hopens hkey _ hlive, fun hkey => hfails hkey ⟨"z", _, List.mem_cons_self⟩ _⟩

end CipherGraph

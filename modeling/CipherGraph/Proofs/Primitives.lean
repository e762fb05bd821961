import CipherGraph.Command.Calculation
import CipherGraph.Proofs.Execution
import CipherGraph.Proofs.NormalForm

/-! # Failures of primitives

A kind of failure that no value or owner brings about comes from keys that are not there, from
levels that are spent or from operations that a scheme leaves out, and from nothing else. That is
shown here once, for any such kind.
-/

namespace CipherGraph

/-- A kind of failure that does not depend on values and their owners. -/
structure EvalError.Remote (bad : EvalError → Bool) : Prop where
  released : ∀ handle, bad (.released handle) = false
  keyMismatch : ∀ expected found, bad (.keyMismatch expected found) = false
  invalid : ∀ fault, bad (.invalid fault) = false

/-- The same kind of failure at nodes. Bad values, rows and names are not of it either. -/
structure ExecError.Remote (bad : EvalError → Bool) (badAt : ExecError → Bool) : Prop extends
    EvalError.Remote bad where
  atNode : ∀ e node, badAt (EvalError.atNode node e) = bad e
  configuration : ∀ fault, badAt (.configuration fault) = false
  constantSlots : ∀ node fault, badAt (.arithmetic node (.constantSlots fault)) = false
  encodeOf : ∀ node found, badAt (.arithmetic node (.encodeOf found)) = false
  plainNegation : ∀ node, badAt (.arithmetic node .plainNegation) = false
  plainRotation : ∀ node, badAt (.arithmetic node .plainRotation) = false
  rawLengths : ∀ node lhs rhs, badAt (.arithmetic node (.rawLengths lhs rhs)) = false

/-- The operations on two ciphertexts that a family relinearizes. -/
def SchemeKind.relinearizes : SchemeKind → Arithmetic → Bool
  | .ckks, .mul | .ckks, .div | .bfv, .mul => true
  | _, _ => false

open EvalError (Remote)

variable {bad : EvalError → Bool} {ev : Evaluator}

theorem Evaluator.spares_requireKeys (h : bad .missingEvaluationKeys = false) :
    Spares bad ev.requireKeys := by
  unfold requireKeys
  split
  · exact spares_ok _
  · exact spares_error h

theorem Evaluator.spares_requireRelin (hk : Spares bad ev.requireKeys)
    (h : bad .missingRelinKey = false) : Spares bad ev.requireRelin := by
  refine hk.bind fun keys _ => ?_
  split
  · exact spares_ok ()
  · exact spares_error h

theorem Evaluator.spares_requireRotation (hk : Spares bad ev.requireKeys) {step : Int}
    (h : bad (.missingRotationKey step) = false) : Spares bad (ev.requireRotation step) := by
  unfold requireRotation
  split
  · exact spares_ok ()
  · split
    · exact spares_error h
    · refine hk.bind fun keys _ => ?_
      split
      · exact spares_ok ()
      · exact spares_error h

theorem spares_sameKey (hb : Remote bad) (expected found : KeyId) :
    Spares bad (sameKey expected found) := by
  unfold sameKey
  split
  · exact spares_ok ()
  · exact spares_error (hb.keyMismatch _ _)

namespace Packed

variable {τ : Type} {f : τ → τ → τ} {level : Nat}

theorem spares_zipSlots (h : ∀ fault, bad (.invalid fault) = false) (lhs rhs : List τ) :
    Spares bad (zipSlots f lhs rhs) := by
  unfold zipSlots
  split
  · exact spares_ok _
  · exact spares_error (h _)

theorem spares_zip (hb : Remote bad) (lhs rhs : PackedCiphertext τ) :
    Spares bad (zip f level lhs rhs) :=
  (spares_sameKey hb _ _).bind fun _ _ =>
    (spares_zipSlots hb.invalid _ _).bind fun _ _ => spares_ok _

theorem spares_zipPlain (hb : Remote bad) (lhs : PackedCiphertext τ) (rhs : PackedPlaintext τ) :
    Spares bad (zipPlain f level lhs rhs) :=
  (spares_zipSlots hb.invalid _ _).bind fun _ _ => spares_ok _

theorem spares_rotate {step : Int} (hr : Spares bad (ev.requireRotation step))
    (c : PackedCiphertext τ) : Spares bad (rotate ev c step) :=
  hr.bind fun _ _ => spares_ok _

theorem spares_checkCount (h : ∀ fault, bad (.invalid fault) = false) (context : Context)
    (count : Nat) : Spares bad (checkCount context count) := by
  unfold checkCount
  split
  · exact spares_ok ()
  · exact spares_error (h _)

end Packed

namespace Exact

open Packed

theorem spares_combine (hb : Remote bad) {op : Arithmetic}
    (hr : op = .mul → Spares bad ev.requireRelin)
    (hu : op = .div → bad (.unsupported .cipherByCipher) = false) (a b : Ciphertext) :
    Spares bad (combine op ev a b) := by
  cases op with
  | add => exact spares_zip hb a b
  | sub => exact spares_zip hb a b
  | mul => exact (hr rfl).bind fun _ _ => spares_zip hb a b
  | div => exact spares_error (hu rfl)

theorem spares_combinePlain (hb : Remote bad) {op : Arithmetic}
    (hu : op = .div → bad (.unsupported .cipherByPlain) = false) (a : Ciphertext) (b : Plaintext) :
    Spares bad (combinePlain op ev a b) := by
  cases op with
  | add => exact spares_zipPlain hb a b
  | sub => exact spares_zipPlain hb a b
  | mul => exact spares_zipPlain hb a b
  | div => exact spares_error (hu rfl)

theorem spares_combineLeft (hb : Remote bad) {op : Arithmetic}
    (hsub : op = .sub → bad (.unsupported .plainMinusCipher) = false)
    (hdiv : op = .div → bad (.unsupported .plainByCipher) = false) (a : Plaintext)
    (b : Ciphertext) : Spares bad (combineLeft op ev a b) := by
  have hcommute (op : Arithmetic) (h : op ≠ .div) : Spares bad (combinePlain op ev b a) :=
    spares_combinePlain hb (fun hdiv => absurd hdiv h) b a
  cases op with
  | add => exact hcommute .add nofun
  | mul => exact hcommute .mul nofun
  | sub => exact spares_error (hsub rfl)
  | div => exact spares_error (hdiv rfl)

end Exact

namespace Approximate

open Packed

theorem spares_rescale {level : Nat} (h : level = 0 → bad .levelExhausted = false) :
    Spares bad (rescale level) := by
  cases level with
  | zero => exact spares_error (h rfl)
  | succ level => exact spares_ok level

theorem spares_combine (hb : Remote bad) {op : Arithmetic} {a b : Ciphertext}
    (hr : op = .mul ∨ op = .div → Spares bad ev.requireRelin)
    (hl : op = .mul ∨ op = .div → min a.level b.level = 0 → bad .levelExhausted = false) :
    Spares bad (combine op ev a b) := by
  cases op with
  | add => exact spares_zip hb a b
  | sub => exact spares_zip hb a b
  | mul =>
    exact (hr (.inl rfl)).bind fun _ _ => (spares_rescale (hl (.inl rfl))).bind fun _ _ =>
      spares_zip hb a b
  | div =>
    exact (hr (.inr rfl)).bind fun _ _ => (spares_rescale (hl (.inr rfl))).bind fun _ _ =>
      spares_zip hb a b

theorem spares_combinePlain (hb : Remote bad) {op : Arithmetic} {a : Ciphertext} {b : Plaintext}
    (hz : op = .div → hasZero b = true → bad .divisionByZero = false)
    (hl : op = .mul ∨ op = .div → min a.level b.level = 0 → bad .levelExhausted = false) :
    Spares bad (combinePlain op a b) := by
  cases op with
  | add => exact spares_zipPlain hb a b
  | sub => exact spares_zipPlain hb a b
  | mul => exact (spares_rescale (hl (.inl rfl))).bind fun _ _ => spares_zipPlain hb a b
  | div =>
    unfold combinePlain
    dsimp only
    split
    · next hzero => exact spares_error (hz rfl hzero)
    · exact (spares_rescale (hl (.inr rfl))).bind fun _ _ => spares_zipPlain hb a b

theorem spares_combineLeft (hb : Remote bad) {op : Arithmetic} {a : Plaintext} {b : Ciphertext}
    (hu : op = .sub → bad (.unsupported .plainMinusCipher) = false)
    (hl : op = .mul ∨ op = .div → min a.level b.level = 0 → bad .levelExhausted = false) :
    Spares bad (combineLeft op a b) := by
  have hcommute (h : op ≠ .div) : Spares bad (combinePlain op b a) :=
    spares_combinePlain hb (fun hdiv => absurd hdiv h) (by rwa [Nat.min_comm])
  cases op with
  | add => exact hcommute nofun
  | mul => exact hcommute nofun
  | sub => exact spares_error (hu rfl)
  | div => exact (spares_rescale (hl (.inr rfl))).bind fun _ _ => spares_zipPlain hb b a

theorem spares_encode (hb : Remote bad) {context : Context} {level : Nat}
    (hl : context.maxLevel < level → bad .levelExhausted = false) (slots : List Float)
    (scaleBits : Nat) : Spares bad (encode context slots scaleBits level) := by
  refine (spares_checkCount hb.invalid _ _).bind fun _ _ => ?_
  dsimp only
  split
  · exact spares_error (hb.invalid _)
  · split
    · next hlevel => exact spares_error (hl hlevel)
    · exact spares_ok _

end Approximate

namespace Gates

theorem avoids_read (h : ∀ handle, bad (.released handle) = false) (context handle : Nat) :
    Avoids bad (Native.read context handle) := by
  refine avoids_get.bind fun v => ?_
  split
  · exact avoids_pure _
  · exact avoids_throw (h handle)

theorem avoids_value (h : ∀ handle, bad (.released handle) = false) (c : Ciphertext) :
    Avoids bad (value c) :=
  (avoids_read h _ _).bind fun _ => avoids_pure _

theorem avoids_alloc (h : ∀ fault, bad (.invalid fault) = false) (context : Context)
    (keyId : KeyId) (x : UInt8) : Avoids bad (alloc context keyId x) := by
  unfold alloc
  split
  · refine Avoids.bind (avoids_get.bind fun v => ?_) fun _ => avoids_pure _
    split
    · exact avoids_throw (h _)
    · exact (avoids_set _).bind fun _ => avoids_pure _
  · exact avoids_throw (h _)

theorem avoids_gate (hb : Remote bad) (hk : Spares bad ev.requireKeys) (c : Ciphertext)
    (f : UInt8 → UInt8) : Avoids bad (gate ev c f) :=
  hk.liftM.bind fun _ => (avoids_value hb.released c).bind fun _ => avoids_alloc hb.invalid _ _ _

theorem avoids_combine (hb : Remote bad) (hk : Spares bad ev.requireKeys) (op : Arithmetic)
    (a b : Ciphertext) : Avoids bad (combine op ev a b) :=
  Avoids.bind ((spares_sameKey hb _ _).liftM.bind fun _ => avoids_value hb.released b) fun _ =>
    avoids_gate hb hk _ _

theorem avoids_combinePlain (hb : Remote bad) (hk : Spares bad ev.requireKeys) {op : Arithmetic}
    (a : Ciphertext) {b : Plaintext}
    (hz : op = .div → b.value = 0 → bad .divisionByZero = false) :
    Avoids bad (combinePlain op ev a b) := by
  unfold combinePlain
  split
  · next hzero =>
    obtain ⟨hop, hvalue⟩ : op = .div ∧ b.value = 0 := by simpa using hzero
    exact (avoids_throw (hz hop hvalue)).bind fun _ => avoids_gate hb hk _ _
  · exact avoids_gate hb hk _ _

theorem avoids_combineLeft (hb : Remote bad) (hk : Spares bad ev.requireKeys) (op : Arithmetic)
    (a : Plaintext) (b : Ciphertext) : Avoids bad (combineLeft op ev a b) := by
  have hcommute (op : Arithmetic) (h : op ≠ .div) : Avoids bad (combinePlain op ev b a) :=
    avoids_combinePlain hb hk b fun hdiv => absurd hdiv h
  cases op with
  | add => exact hcommute .add nofun
  | mul => exact hcommute .mul nofun
  | sub => exact avoids_gate hb hk _ _
  | div => exact avoids_gate hb hk _ _

theorem spares_encode (h : ∀ fault, bad (.invalid fault) = false) (context : Context)
    (slots : List UInt8) : Spares bad (encode context slots) := by
  unfold encode
  split
  · exact spares_ok _
  · exact spares_error (h _)

end Gates

open Command

/-- The primitives of a scheme end in failures of this kind only where evaluation keys are asked
for, where a plain divisor is zero, or where the scheme evaluates nothing of the sort. -/
structure Scheme.Reserves (S : Scheme) (bad : EvalError → Bool) : Prop where
  encode : ∀ context slots scaleBits level, Spares bad (S.encode context slots scaleBits level)
  combine : ∀ op ev a b, Spares bad ev.requireKeys →
    (S.kind.relinearizes op = true → Spares bad ev.requireRelin) →
      (S.kind.evaluates op .cipher .cipher = false → ∀ what, bad (.unsupported what) = false) →
        Avoids bad (S.combine op ev a b)
  combinePlain : ∀ op ev a b, Spares bad ev.requireKeys →
    (op = .div → S.hasZero b = true → bad .divisionByZero = false) →
      (S.kind.evaluates op .cipher .plain = false → ∀ what, bad (.unsupported what) = false) →
        Avoids bad (S.combinePlain op ev a b)
  combineLeft : ∀ op ev a b, Spares bad ev.requireKeys →
    (S.kind.evaluates op .plain .cipher = false → ∀ what, bad (.unsupported what) = false) →
      Avoids bad (S.combineLeft op ev a b)
  negate : ∀ ev c, Spares bad ev.requireKeys → Avoids bad (S.negate ev c)
  rotate : ∀ ev c step, Spares bad ev.requireKeys →
    (S.kind.capabilities.rotationKeys = true → Spares bad (ev.requireRotation step)) →
      Avoids bad (S.rotate ev c step)

theorem reserves_bfv (hb : Remote bad) : Scheme.bfv.Reserves bad where
  encode context slots _ _ := (Packed.spares_checkCount hb.invalid _ _).bind fun _ _ => spares_ok _
  combine _ _ a b _ hr hu :=
    (Exact.spares_combine hb (by rintro rfl; exact hr rfl) (by rintro rfl; exact hu rfl _) a
      b).liftM
  combinePlain _ _ a b _ _ hu :=
    (Exact.spares_combinePlain hb (by rintro rfl; exact hu rfl _) a b).liftM
  combineLeft _ _ a b _ hu :=
    (Exact.spares_combineLeft hb (by rintro rfl; exact hu rfl _) (by rintro rfl; exact hu rfl _)
      a b).liftM
  negate _ _ _ := avoids_pure _
  rotate _ c _ _ hr := (Packed.spares_rotate (hr rfl) c).liftM

theorem reserves_ckks (hb : Remote bad) (hl : bad .levelExhausted = false) :
    Scheme.ckks.Reserves bad where
  encode _ slots scaleBits _ := Approximate.spares_encode hb (fun _ => hl) slots scaleBits
  combine _ _ _ _ _ hr _ :=
    (Approximate.spares_combine hb (by rintro (rfl | rfl) <;> exact hr rfl) fun _ _ => hl).liftM
  combinePlain _ _ _ _ _ hz _ := (Approximate.spares_combinePlain hb hz fun _ _ => hl).liftM
  combineLeft _ _ _ _ _ hu :=
    (Approximate.spares_combineLeft hb (by rintro rfl; exact hu rfl _) fun _ _ => hl).liftM
  negate _ _ _ := avoids_pure _
  rotate _ c _ _ hr := (Packed.spares_rotate (hr rfl) c).liftM

theorem reserves_bitwise (hb : Remote bad) : Scheme.bitwise.Reserves bad where
  encode context slots _ _ := Gates.spares_encode hb.invalid context slots
  combine op _ a b hk _ _ := Gates.avoids_combine hb hk op a b
  combinePlain _ _ a _ hk hz _ :=
    Gates.avoids_combinePlain hb hk a fun hop hzero => hz hop (beq_iff_eq.mpr hzero)
  combineLeft op _ a b hk _ := Gates.avoids_combineLeft hb hk op a b
  negate _ c hk := Gates.avoids_gate hb hk c _
  rotate _ c _ hk _ := Gates.avoids_gate hb hk c _

theorem kind_schemeOf (kind : SchemeKind) : (schemeOf kind).kind = kind := by cases kind <;> rfl

theorem reserves (hb : Remote bad) (hl : bad .levelExhausted = false) (kind : SchemeKind) :
    (schemeOf kind).Reserves bad := by
  cases kind with
  | ckks => exact reserves_ckks hb hl
  | bfv => exact reserves_bfv hb
  | bitwise => exact reserves_bitwise hb

def Operation.turn? : Operation → Option (Nat × Bool)
  | .rotateLeft steps => some (steps, true)
  | .rotateRight steps => some (steps, false)
  | _ => none

/-- The divisions by zero that a machine sees: in the clear, and of a ciphertext by a plaintext. -/
def Machine.refuses {S : Scheme} (m : Machine S) (op : Arithmetic) : Value S → Value S → Bool
  | .raw _, .raw b => op = .div && (S.reduceRaw m.context b).any Slot.isZero
  | .cipher _, .plain b => op = .div && S.hasZero b
  | _, _ => false

variable {badAt : ExecError → Bool} (hb : ExecError.Remote bad badAt) {S : Scheme} {α : Type}
  {node : NodeId}

include hb

theorem Avoids.atNode {n : Native α} (h : Avoids bad n) : Avoids badAt (n.atNode node) := by
  intro v e v' hr
  obtain ⟨x, hx, he⟩ := runs_atNode.mp hr
  cases x with
  | ok a => cases he
  | error e' =>
    cases he
    rw [hb.atNode]
    exact h v e' v' hx

theorem Spares.ofEval {x : Except EvalError α} (h : Spares bad x) :
    Avoids badAt (Exec.ofEval node x) := by
  cases x with
  | ok a => exact avoids_pure a
  | error e => exact avoids_throw ((hb.atNode e node).trans (h e rfl))

theorem spares_fill (slots : List α) (count : Nat) : Spares badAt (fill slots count) := by
  unfold fill
  split
  · exact spares_error (hb.configuration _)
  · exact spares_ok _

namespace Machine

variable {m : Machine S}

theorem avoids_constant (m : Machine S) (c : Constant) : Avoids badAt (m.constant node c) := by
  unfold Machine.constant
  split
  · exact avoids_throw (hb.constantSlots node _)
  · exact (spares_fill hb _ _).liftM.bind fun _ => avoids_pure _

theorem spares_rawArithmetic {op : Arithmetic} (a : List S.Slot) {b : List S.Slot}
    (hz : (op = .div && b.any Slot.isZero) = true → bad .divisionByZero = false) :
    Spares badAt (rawArithmetic (S := S) node op a b) := by
  unfold rawArithmetic
  split
  · exact spares_error (hb.rawLengths node _ _)
  · split
    · next hzero => exact spares_error ((hb.atNode .divisionByZero node).trans (hz hzero))
    · exact spares_ok _

theorem avoids_requireKeys (hk : Spares bad m.evaluator.requireKeys) (op : Arithmetic) :
    Avoids badAt (m.requireKeys node op) := by
  unfold requireKeys
  split
  · exact (hk.ofEval hb).bind fun _ => avoids_pure _
  · exact avoids_pure _

theorem avoids_encode {x : Value S} {scaleBits level : Nat}
    (hencode : ∀ slots, Spares bad (S.encode m.context slots scaleBits level)) :
    Avoids badAt (m.encode node x scaleBits level) := by
  unfold Machine.encode
  split
  · exact (spares_fill hb _ _).liftM.bind fun _ => ((hencode _).ofEval hb).bind fun _ =>
      avoids_pure _
  · exact avoids_throw (hb.encodeOf node _)

theorem avoids_negate {x : Value S} (hnegate : ∀ c, Avoids bad (S.negate m.evaluator c)) :
    Avoids badAt (m.negate node x) := by
  unfold Machine.negate
  split
  · exact ((hnegate _).atNode hb).bind fun _ => avoids_pure _
  · exact avoids_throw (hb.plainNegation node)
  · exact avoids_pure _

theorem avoids_rotate {x : Value S} {steps : Nat} {left : Bool}
    (hrotate : ∀ c, x = .cipher c →
      Avoids bad (S.rotate m.evaluator c (S.rotationStep steps m.graph.width left))) :
    Avoids badAt (m.rotate node x steps left) := by
  unfold Machine.rotate
  cases x with
  | cipher c =>
    have hturn : Avoids badAt ((S.rotate m.evaluator c _).atNode node) := (hrotate c rfl).atNode hb
    dsimp only
    split
    · exact (avoids_throw (hb.configuration _)).bind fun _ => hturn.bind fun _ => avoids_pure _
    · exact hturn.bind fun _ => avoids_pure _
  | plain p => exact avoids_throw (hb.plainRotation node)
  | raw slots => exact avoids_pure _

theorem avoids_unary_of {op : Operation} {x : Value S}
    (hencode : ∀ scaleBits level slots, op = .encode scaleBits level →
      Spares bad (S.encode m.context slots scaleBits level))
    (hnegate : ∀ c, Avoids bad (S.negate m.evaluator c))
    (hrotate : ∀ c steps left, x = .cipher c → op.turn? = some (steps, left) →
      Avoids bad (S.rotate m.evaluator c (S.rotationStep steps m.graph.width left)))
    (hop : op.arity = 1 ∧ (∀ a, op ≠ .aggregate a) ∨
      badAt (.unsupported node op.name S.kind) = false) : Avoids badAt (m.unary node op x) := by
  cases op with
  | output name => exact avoids_pure x
  | encode scaleBits level =>
    exact avoids_encode hb fun slots => hencode scaleBits level slots rfl
  | negate => exact avoids_negate hb hnegate
  | rotateLeft steps => exact avoids_rotate hb fun c hc => hrotate c steps true hc rfl
  | rotateRight steps => exact avoids_rotate hb fun c hc => hrotate c steps false hc rfl
  | aggregate a => exact avoids_throw (hop.resolve_left fun h => h.2 a rfl)
  | input | constant | arithmetic => exact avoids_throw (hop.resolve_left (by rintro ⟨⟨⟩, -⟩))

theorem avoids_arithmetic_of (hk : Spares bad m.evaluator.requireKeys) {op : Arithmetic}
    {lhs rhs : Value S}
    (hcombine : ∀ a b, lhs = .cipher a → rhs = .cipher b →
      Avoids bad (S.combine op m.evaluator a b))
    (hright : ∀ a b, lhs = .cipher a → rhs = .plain b →
      Avoids bad (S.combinePlain op m.evaluator a b))
    (hleft : ∀ a b, lhs = .plain a → rhs = .cipher b →
      Avoids bad (S.combineLeft op m.evaluator a b))
    (hplain : badAt (.arithmetic node (.plainOperands op)) = false)
    (hraw : lhs.type = .raw ∨ rhs.type = .raw →
      badAt (.arithmetic node (.unencodedOperand op lhs.type rhs.type)) = false)
    (hz : m.refuses op lhs rhs = true → bad .divisionByZero = false) :
    Avoids badAt (m.arithmetic node op lhs rhs) := by
  have hkeys : Avoids badAt (m.requireKeys node op) := avoids_requireKeys hb hk op
  cases lhs with
  | raw a =>
    cases rhs with
    | raw b => exact (spares_rawArithmetic hb _ hz).liftM.bind fun _ => avoids_pure _
    | plain b => exact avoids_throw (hraw (.inl rfl))
    | cipher b => exact avoids_throw (hraw (.inl rfl))
  | plain a =>
    cases rhs with
    | raw b => exact avoids_throw (hraw (.inr rfl))
    | plain b => exact avoids_throw hplain
    | cipher b =>
      exact hkeys.bind fun _ => ((hleft a b rfl rfl).atNode hb).bind fun _ => avoids_pure _
  | cipher a =>
    cases rhs with
    | raw b => exact avoids_throw (hraw (.inr rfl))
    | plain b =>
      have hcombine : Avoids badAt (do
          m.requireKeys node op
          return Value.cipher (← (S.combinePlain op m.evaluator a b).atNode node)) :=
        hkeys.bind fun _ => ((hright a b rfl rfl).atNode hb).bind fun _ => avoids_pure _
      unfold Machine.arithmetic
      dsimp only
      split
      · next hrefused =>
        exact (avoids_throw ((hb.atNode .divisionByZero node).trans (hz hrefused))).bind fun _ =>
          hcombine
      · exact hcombine
    | cipher b =>
      exact hkeys.bind fun _ => ((hcombine a b rfl rfl).atNode hb).bind fun _ => avoids_pure _

/-- A visit fails in this way only in an evaluation, whose operands the machine holds. -/
theorem avoids_visit_of (hgraph : ∀ fault, badAt (.graph fault) = false)
    (hvalue : ∀ id, badAt (.absent (.nodeValue id)) = false)
    (hop : ∀ op, badAt (.unsupported node op S.kind) = false)
    (harithmetic : ∀ op lhs rhs rest x y, m.graph.op? node = .ok (.arithmetic op) →
      m.graph.operands node = lhs :: rhs :: rest → m.values.find? lhs = some x →
        m.values.find? rhs = some y → Avoids badAt (m.arithmetic node op x y))
    (hunary : ∀ op operand rest x, m.graph.op? node = .ok op →
      m.graph.operands node = operand :: rest → m.values.find? operand = some x →
        Avoids badAt (m.unary node op x)) :
    Avoids badAt (m.visit node) := by
  have hread (id : NodeId) : Avoids badAt (m.value id) := by
    unfold Machine.value
    split
    · exact avoids_pure _
    · exact avoids_throw (hvalue id)
  intro v e v' h
  rcases visit_error h with ⟨fault, rfl⟩ | ⟨name, rfl⟩ | ⟨op, hnode, -, heval⟩
  · exact hgraph fault
  · exact hb.configuration _
  revert heval
  suffices Avoids badAt (m.evaluate node op) from this v e v'
  have hother (operand : NodeId) (rest : List NodeId)
      (ho : m.graph.operands node = operand :: rest) :
      Avoids badAt (do m.unary node op (← m.value operand)) :=
    (hread operand).bind_of_runs fun x _ _ hx =>
      hunary op operand rest x hnode ho (runs_value_ok.mp hx).1
  unfold evaluate
  split
  · exact avoids_throw (hop _)
  · exact avoids_constant hb m _
  · next a lhs rhs rest ho =>
    exact (hread lhs).bind_of_runs fun x _ _ hx => (hread rhs).bind_of_runs fun y _ _ hy =>
      harithmetic a lhs rhs rest x y hnode ho (runs_value_ok.mp hx).1 (runs_value_ok.mp hy).1
  · next operand rest _ _ _ ho => exact hother operand rest ho
  · exact avoids_throw (hvalue node)

variable (hS : S.Reserves bad) (hk : Spares bad m.evaluator.requireKeys)

include hS hk

theorem avoids_unary {op : Operation} (x : Value S)
    (hrotation : ∀ step, bad (.missingRotationKey step) = false)
    (hop : op.arity = 1 ∧ (∀ a, op ≠ .aggregate a) ∨
      badAt (.unsupported node op.name S.kind) = false) : Avoids badAt (m.unary node op x) :=
  avoids_unary_of hb (fun scaleBits level slots _ => hS.encode _ slots scaleBits level)
    (fun c => hS.negate _ c hk)
    (fun c _ _ _ _ => hS.rotate _ c _ hk fun _ =>
      Evaluator.spares_requireRotation hk (hrotation _)) hop

theorem avoids_arithmetic {op : Arithmetic} {lhs rhs : Value S}
    (hr : ∀ a b, lhs = .cipher a → rhs = .cipher b → S.kind.relinearizes op = true →
      Spares bad m.evaluator.requireRelin)
    (hu : S.kind.evaluates op lhs.type rhs.type = false → ∀ what, bad (.unsupported what) = false)
    (hplain : badAt (.arithmetic node (.plainOperands op)) = false)
    (hraw : lhs.type = .raw ∨ rhs.type = .raw →
      badAt (.arithmetic node (.unencodedOperand op lhs.type rhs.type)) = false)
    (hz : m.refuses op lhs rhs = true → bad .divisionByZero = false) :
    Avoids badAt (m.arithmetic node op lhs rhs) := by
  refine avoids_arithmetic_of hb hk ?_ ?_ ?_ hplain hraw hz
  · rintro a b rfl rfl
    exact hS.combine op _ a b hk (hr a b rfl rfl) hu
  · rintro a b rfl rfl
    exact hS.combinePlain op _ a b hk (fun hop hzero => hz (by simp [refuses, hop, hzero])) hu
  · rintro a b rfl rfl
    exact hS.combineLeft op _ a b hk hu

end Machine

end CipherGraph

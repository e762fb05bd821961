import CipherGraph.Proofs.Execution
import Mathlib.Order.Basic

/-! # Disciplines

What is to be shown of computations is shown once for the primitives of a scheme and carries over to
encryptions and visits. A discipline lists what has to be shown; its worlds say what is known of the
vault, and a computation only moves to later ones.
-/

namespace CipherGraph

/-- The failure of a primitive whose operands belong to different keys. -/
def EvalError.isKeyMismatch : EvalError → Bool
  | .keyMismatch .. => true
  | _ => false

/-- The failure of a primitive whose operand is gone. -/
def EvalError.isReleased : EvalError → Bool
  | .released _ => true
  | _ => false

/-- Either of them: a ciphertext is not what it should be. -/
def EvalError.isMisfit (e : EvalError) : Bool := e.isKeyMismatch || e.isReleased

/-- The same failure, at a node or outside any graph. -/
def ExecError.isKeyMismatch : ExecError → Bool
  | .configuration (.primitive e _) => e.isKeyMismatch
  | _ => false

/-- The same failure, or that of an output that is gone. -/
def ExecError.isReleased : ExecError → Bool
  | .absent (.primitive e _) => e.isReleased
  | .absent (.outputReleased _) => true
  | _ => false

def ExecError.isMisfit (e : ExecError) : Bool := e.isKeyMismatch || e.isReleased

theorem ExecError.isMisfit_eq_false {e : ExecError} :
    e.isMisfit = false ↔ e.isKeyMismatch = false ∧ e.isReleased = false := Bool.or_eq_false_iff

namespace EvalError

theorem isKeyMismatch_atNode (e : EvalError) (node : NodeId) :
    (e.atNode node).isKeyMismatch = e.isKeyMismatch := by
  cases e <;> rfl

theorem isReleased_atNode (e : EvalError) (node : NodeId) :
    (e.atNode node).isReleased = e.isReleased := by
  cases e <;> rfl

theorem isReleased_alone (e : EvalError) : e.alone.isReleased = e.isReleased := by
  cases e <;> rfl

theorem isMisfit_atNode (e : EvalError) (node : NodeId) :
    (e.atNode node).isMisfit = e.isMisfit := by
  cases e <;> rfl

theorem isMisfit_alone (e : EvalError) : e.alone.isMisfit = e.isMisfit := by
  cases e <;> rfl

end EvalError

/-- `Holds w m Q` judges the computation `m` in the world `w`, with `Q` of its results in the world
where it ends; `Fits w c` judges a ciphertext. Only primitives may fail for their ciphertexts. -/
structure Discipline (S : Scheme) (W : Type) [Preorder W] where
  Holds : {α : Type} → W → Exec α → (α → W → Prop) → Prop
  Fits : W → S.Ciphertext → Prop
  mono : ∀ {w w' c}, w ≤ w' → Fits w c → Fits w' c
  pure : ∀ {α : Type} {w} {a : α} {Q : α → W → Prop}, Q a w → Holds w (pure a) Q
  throw : ∀ {α : Type} {w} {e : ExecError} {Q : α → W → Prop}, e.isMisfit = false →
    Holds w (throw e) Q
  bind : ∀ {α β : Type} {w} {m : Exec α} {f : α → Exec β} {Q : α → W → Prop} {R : β → W → Prop},
    Holds w m Q → (∀ a w', w ≤ w' → Q a w' → Holds w' (f a) R) → Holds w (m >>= f) R
  encode : ∀ context slots scaleBits level,
    Spares EvalError.isMisfit (S.encode context slots scaleBits level)
  combine : ∀ {w a b} op ev node, Fits w a → Fits w b →
    Holds w ((S.combine op ev a b).atNode node) fun c w' => Fits w' c
  combinePlain : ∀ {w a} op ev b node, Fits w a →
    Holds w ((S.combinePlain op ev a b).atNode node) fun c w' => Fits w' c
  combineLeft : ∀ {w b} op ev a node, Fits w b →
    Holds w ((S.combineLeft op ev a b).atNode node) fun c w' => Fits w' c
  negate : ∀ {w c} ev node, Fits w c →
    Holds w ((S.negate ev c).atNode node) fun c w' => Fits w' c
  rotate : ∀ {w c} ev step node, Fits w c →
    Holds w ((S.rotate ev c step).atNode node) fun c w' => Fits w' c

namespace Discipline

variable {S : Scheme} {W : Type} [Preorder W] (D : Discipline S W) {α β : Type} {w w' : W}
  {m : Machine S} {node : NodeId} {x y : Value S}

/-- Values in the clear fit anyway. -/
def Suits (w : W) (x : Value S) : Prop := ∀ c, x = .cipher c → D.Fits w c

def Accepts (w : W) (m : Machine S) : Prop := ∀ id x, m.values.find? id = some x → D.Suits w x

variable {D}

theorem suits_cipher {c : S.Ciphertext} (h : D.Fits w c) : D.Suits w (.cipher c) := by
  rintro _ ⟨⟩
  exact h

theorem suits_plain (p : S.Plaintext) : D.Suits w (.plain p) := nofun

theorem suits_raw (slots : List S.Slot) : D.Suits w (.raw slots) := nofun

theorem Suits.mono (h : D.Suits w x) (hw : w ≤ w') : D.Suits w' x :=
  fun c hc => D.mono hw (h c hc)

theorem Accepts.mono (h : D.Accepts w m) (hw : w ≤ w') : D.Accepts w' m :=
  fun id x hx => (h id x hx).mono hw

theorem Accepts.put (h : D.Accepts w m) (hx : D.Suits w x) : D.Accepts w (m.put node x) :=
  OrderedMap.forall_find?_insert hx h

theorem Accepts.trims {m' : Machine S} (h : D.Accepts w m) (ht : Machine.Trims m m') :
    D.Accepts w m' :=
  fun id x hx => h id x (ht.values id x hx)

variable {Q : α → W → Prop}

theorem holds_liftM {r : Except ExecError α} (he : Spares ExecError.isMisfit r)
    (ha : ∀ a, r = .ok a → Q a w) : D.Holds w (liftM r) Q := by
  cases r with
  | ok a => exact D.pure (ha a rfl)
  | error e => exact D.throw (he e rfl)

theorem holds_ofEval {r : Except EvalError α} (he : Spares EvalError.isMisfit r) :
    D.Holds w (Exec.ofEval node r) fun _ _ => True := by
  cases r with
  | ok a => exact D.pure trivial
  | error e => exact D.throw ((e.isMisfit_atNode node).trans (he e rfl))

theorem holds_ofGraph (r : Except GraphError α) :
    D.Holds w (Exec.ofGraph r) fun _ _ => True := by
  cases r with
  | ok a => exact D.pure trivial
  | error e => exact D.throw rfl

theorem holds_fill (slots : List α) (count : Nat) :
    D.Holds w (liftM (fill slots count)) fun _ _ => True := by
  refine holds_liftM ?_ fun _ _ => trivial
  unfold fill
  split
  · exact spares_error rfl
  · exact spares_ok _

theorem holds_cipher {n : Exec S.Ciphertext} (h : D.Holds w n fun c w' => D.Fits w' c) :
    D.Holds w (do return Value.cipher (← n)) fun x w' => D.Suits w' x :=
  D.bind h fun _ _ _ hc => D.pure (suits_cipher hc)

theorem holds_value (hm : D.Accepts w m) :
    D.Holds w (m.value node) fun x w' => D.Suits w' x := by
  unfold Machine.value
  split
  · next x hx => exact D.pure (hm node x hx)
  · exact D.throw rfl

theorem holds_constant (c : Constant) :
    D.Holds w (m.constant node c) fun x w' => D.Suits w' x := by
  unfold Machine.constant
  split
  · exact D.throw rfl
  · exact D.bind (holds_fill _ _) fun _ _ _ _ => D.pure (suits_raw _)

theorem holds_requireKeys (op : Arithmetic) :
    D.Holds w (m.requireKeys node op) fun _ _ => True := by
  unfold Machine.requireKeys
  split
  · refine D.bind (holds_ofEval ?_) fun _ _ _ _ => D.pure trivial
    unfold Evaluator.requireKeys
    split
    · exact spares_ok _
    · exact spares_error rfl
  · exact D.pure trivial

theorem holds_rawArithmetic (op : Arithmetic) (a b : List S.Slot) :
    D.Holds w (liftM (Machine.rawArithmetic (S := S) node op a b)) fun _ _ => True := by
  refine holds_liftM ?_ fun _ _ => trivial
  unfold Machine.rawArithmetic
  split
  · exact spares_error rfl
  · split
    · exact spares_error rfl
    · exact spares_ok _

theorem holds_arithmetic (op : Arithmetic) (hx : D.Suits w x) (hy : D.Suits w y) :
    D.Holds w (m.arithmetic node op x y) fun x w' => D.Suits w' x := by
  have hkeys : D.Holds w (m.requireKeys node op) fun _ _ => True := holds_requireKeys op
  unfold Machine.arithmetic
  split
  · exact D.bind (holds_rawArithmetic op _ _) fun _ _ _ _ => D.pure (suits_raw _)
  · next a b =>
    exact D.bind hkeys fun _ _ hw _ =>
      holds_cipher (D.combine op _ node (D.mono hw (hx a rfl)) (D.mono hw (hy b rfl)))
  · next a b =>
    have hrest : D.Holds w (do
        m.requireKeys node op
        return Value.cipher (← (S.combinePlain op m.evaluator a b).atNode node))
        fun x w' => D.Suits w' x :=
      D.bind hkeys fun _ _ hw _ => holds_cipher (D.combinePlain op _ b node (D.mono hw (hx a rfl)))
    split
    · exact D.bind (Q := fun _ _ => False) (D.throw rfl) fun _ _ _ h => h.elim
    · exact hrest
  · next a b =>
    exact D.bind hkeys fun _ _ hw _ =>
      holds_cipher (D.combineLeft op _ a node (D.mono hw (hy b rfl)))
  · exact D.throw rfl
  · exact D.throw rfl

theorem holds_encode {scaleBits level : Nat} :
    D.Holds w (m.encode node x scaleBits level) fun x w' => D.Suits w' x := by
  unfold Machine.encode
  split
  · exact D.bind (holds_fill _ _) fun full _ _ _ =>
      D.bind (holds_ofEval (D.encode _ full _ _)) fun _ _ _ _ => D.pure (suits_plain _)
  · exact D.throw rfl

theorem holds_negate (hx : D.Suits w x) :
    D.Holds w (m.negate node x) fun x w' => D.Suits w' x := by
  unfold Machine.negate
  split
  · next c => exact holds_cipher (D.negate _ node (hx c rfl))
  · exact D.throw rfl
  · exact D.pure (suits_raw _)

theorem holds_rotate {steps : Nat} {left : Bool} (hx : D.Suits w x) :
    D.Holds w (m.rotate node x steps left) fun x w' => D.Suits w' x := by
  unfold Machine.rotate
  split
  · next c =>
    split
    · exact D.bind (Q := fun _ _ => False) (D.throw rfl) fun _ _ _ h => h.elim
    · exact holds_cipher (D.rotate _ _ node (hx c rfl))
  · exact D.throw rfl
  · exact D.pure (suits_raw _)

theorem holds_unary (op : Operation) (hx : D.Suits w x) :
    D.Holds w (m.unary node op x) fun x w' => D.Suits w' x := by
  unfold Machine.unary
  split
  · exact D.pure hx
  · exact holds_encode
  · exact holds_negate hx
  · exact holds_rotate hx
  · exact holds_rotate hx
  · exact D.throw rfl

theorem holds_evaluate (op : Operation) (hm : D.Accepts w m) :
    D.Holds w (m.evaluate node op) fun x w' => D.Suits w' x := by
  unfold Machine.evaluate
  split
  · exact D.throw rfl
  · exact holds_constant _
  · exact D.bind (holds_value hm) fun _ _ hw hx => D.bind (holds_value (hm.mono hw))
      fun _ _ hw' hy => holds_arithmetic _ (hx.mono hw') hy
  · exact D.bind (holds_value hm) fun _ _ _ hx => holds_unary _ hx
  · exact D.throw rfl

theorem holds_visit (hm : D.Accepts w m) (node : NodeId) :
    D.Holds w (m.visit node) fun m' w' => D.Accepts w' m' := by
  unfold Machine.visit
  refine D.bind (holds_ofGraph _) fun op w' hw _ => ?_
  split
  · split
    · exact D.pure (hm.mono hw)
    · exact D.throw rfl
  · exact D.bind (holds_evaluate _ (hm.mono hw)) fun _ _ hw' hx =>
      D.pure (((hm.mono hw).mono hw').put hx)

section Encryptions

variable {context : Context} {keyId : KeyId} {sig : Signature}

theorem holds_inputSlots (name : String) (v : PlainValue) (width slotCount : Nat) :
    D.Holds w (liftM (inputSlots S name v width slotCount)) fun _ _ => True := by
  refine holds_liftM (fun e he => ?_) fun _ _ => trivial
  unfold inputSlots at he
  split at he
  · cases he
    rfl
  · split at he
    · cases he
      rfl
    · cases he
    · split at he <;> cases he
      rfl

variable (hencrypt : ∀ {w} p noise,
  D.Holds w (S.encrypt context keyId p noise).alone fun c w' => D.Fits w' c)

include hencrypt

theorem holds_encryptInput (name : String) (v : PlainValue) (noise : Noise) :
    D.Holds w (encryptInput S context keyId sig name v noise) fun x w' => D.Suits w' x := by
  unfold encryptInput
  split
  · exact D.throw rfl
  · refine D.bind (holds_inputSlots ..) fun slots w₁ _ _ => ?_
    split
    · exact D.bind (holds_fill _ _) fun _ _ _ _ => D.pure (suits_raw _)
    · refine D.bind (holds_fill _ _) fun full w₂ _ _ => ?_
      split
      · next e he => exact D.throw (e.isMisfit_alone.trans (D.encode _ _ _ _ e he))
      · split
        · exact D.pure (suits_plain _)
        · exact holds_cipher (hencrypt _ _)

theorem holds_encrypt (v : Valuation) (noise : String → Noise) :
    D.Holds w (encrypt S context keyId v sig noise) fun found w' => ∀ name x,
      (name, x) ∈ found.entries → D.Suits w' x := by
  have hall (l : List (String × PlainValue)) (found : SchemeValuation S) {w : W}
      (hfound : ∀ name x, (name, x) ∈ found.entries → D.Suits w x) :
      D.Holds w (l.foldlM (fun (found : SchemeValuation S) e => do
        return found.insert e.1 (← encryptInput S context keyId sig e.1 e.2 (noise e.1))) found)
        fun found w' => ∀ name x, (name, x) ∈ found.entries → D.Suits w' x := by
    induction l generalizing found w with
    | nil => exact D.pure hfound
    | cons e l ih =>
      rw [List.foldlM_cons, bind_assoc]
      refine D.bind (holds_encryptInput hencrypt e.1 e.2 _) fun x w' hw hx => ?_
      rw [pure_bind]
      refine ih _ fun name y hy => ?_
      rcases OrderedMap.mem_entries_insert hy with heq | hy
      · cases heq
        exact hx
      · exact (hfound name y hy).mono hw
  unfold encrypt
  dsimp only
  split
  · exact D.bind (Q := fun _ _ => False) (D.throw rfl) fun _ _ _ h => h.elim
  · exact hall _ ∅ (by simp)

end Encryptions

end Discipline

end CipherGraph

import CipherGraph.Proofs.Classes
import CipherGraph.Proofs.Meaning
import CipherGraph.Proofs.Vaults

/-! # Simulations

A relation between values and meanings that every operation of a scheme keeps is kept by a whole
execution: whatever a machine holds is related to what its node denotes.
-/

namespace CipherGraph

variable {S : Scheme} {V : Type}

/-- Values are related to meanings by way of a vault that has the property `P`, and they stay
related as it grows. -/
structure Endures (P : Vault → Prop) (R : Vault → Value S → Meaning V → Prop) : Prop where
  grows : ∀ {v v'}, v.Extends v' → P v → P v'
  stable : ∀ {v v' x d}, v.Extends v' → P v → R v x d → R v' x d

/-- The operations of all machines of a graph take related operands to related results. -/
structure Simulates (keys : Public S.kind) (g : Graph) (I : Interpretation V) (scaleBits : Nat)
    (P : Vault → Prop) (R : Vault → Value S → Meaning V → Prop) : Prop extends Endures P R where
  constant : ∀ {m : Machine S} {node c x v v'}, m.graph = g → m.keys = keys →
    Runs (m.constant node c) v (.ok x) v' → R v' x ⟨.raw, I.constant c⟩
  arithmetic : ∀ {m : Machine S} {node op x y z a b v v'}, m.graph = g → m.keys = keys →
    P v → R v x a → R v y b → Runs (m.arithmetic node op x y) v (.ok z) v' →
      R v' z (I.arithmetic scaleBits op a b)
  unary : ∀ {m : Machine S} {node op x z a v v'}, m.graph = g → m.keys = keys →
    ⟨node, op⟩ ∈ g.nodes → P v → R v x a → Runs (m.unary node op x) v (.ok z) v' →
      ∃ d, I.apply scaleBits op [a] = some d ∧ R v' z d

variable {keys : Public S.kind} {g : Graph} {I : Interpretation V} {scaleBits : Nat}
  {P : Vault → Prop} {R : Vault → Value S → Meaning V → Prop} {μ : NodeId → Meaning V}
  {v v' : Vault}

namespace Machine

variable {m m' : Machine S} {node : NodeId} {x : Value S}

/-- Every value held is related to what its node denotes. -/
def Tracks (m : Machine S) (R : Vault → Value S → Meaning V → Prop) (μ : NodeId → Meaning V)
    (v : Vault) : Prop :=
  ∀ id x, m.values.find? id = some x → R v x (μ id)

theorem Tracks.put (h : m.Tracks R μ v) (hx : R v x (μ node)) : (m.put node x).Tracks R μ v :=
  OrderedMap.forall_find?_insert hx h

theorem Tracks.trims (h : m.Tracks R μ v) (ht : Trims m m') : m'.Tracks R μ v :=
  fun id x hx => h id x (ht.values id x hx)

variable (hsim : Simulates keys g I scaleBits P R) (hS : S.Lasting) (hg : g.Sound)
  (hμ : g.Solves I scaleBits μ)

include hsim hS hg hμ

theorem Tracks.visit (hgraph : m.graph = g) (hkeys : m.keys = keys) (hv : P v)
    (h : m.Tracks R μ v) (hrun : Runs (m.visit node) v (.ok m') v') : m'.Tracks R μ v' := by
  have hgrown := grows_visit hS m node v _ v' hrun
  have hlater : m.Tracks R μ v' := fun id x hx => hsim.stable hgrown hv (h id x hx)
  obtain ⟨rfl, -⟩ | ⟨op, x, hop, hinput, heval, rfl⟩ := visit_ok hrun
  · exact hlater
  · refine hlater.put ?_
    rw [hgraph] at hop
    have hn := (Graph.op?_eq_ok hg.ascending).mp hop
    have hdenotes := hμ _ hn
    have harity := hg.arity _ hn
    dsimp only at hdenotes harity
    rw [← hgraph] at hdenotes harity
    obtain ⟨c, rfl, hc⟩ | ⟨a, lhs, rhs, y, z, rfl, hoperands, hy, hz, ha⟩ |
      ⟨operand, y, hoperands, hy, hu⟩ := evaluate_ok harity hinput heval
    · rw [List.length_eq_zero_iff.mp harity] at hdenotes
      rw [← Option.some.inj hdenotes]
      exact hsim.constant hgraph hkeys hc
    · rw [hoperands] at hdenotes
      rw [← Option.some.inj hdenotes]
      exact hsim.arithmetic hgraph hkeys hv (h lhs y hy) (h rhs z hz) ha
    · rw [hoperands] at hdenotes
      obtain ⟨d, hd, hx⟩ := hsim.unary hgraph hkeys hn hv (h operand y hy) hu
      rwa [← Option.some.inj (hdenotes.symm.trans hd)] at hx

theorem Tracks.passes {left left' : Remaining} {order : List NodeId} (hgraph : m.graph = g)
    (hkeys : m.keys = keys) (hv : P v) (h : m.Tracks R μ v)
    (hrun : Passes m left v order m' left' v') : P v' ∧ m'.Tracks R μ v' := by
  induction hrun with
  | nil => exact ⟨hv, h⟩
  | cons hvisit _ ih =>
    have hframe := visit_frame hvisit
    have htrims := trims_freeOperands (S := S)
    exact ih (((htrims ..).graph.trans hframe.1).trans hgraph)
      (((htrims ..).keys.trans hframe.2).trans hkeys)
      (hsim.grows (grows_visit hS _ _ _ _ _ hvisit) hv)
      ((h.visit hsim hS hg hμ hgraph hkeys hv hvisit).trims (htrims ..))

end Machine

open Machine

variable {m : Machine S} {inputs outputs : SchemeValuation S} {rank : NodeId → Nat} {types : Typing}
  {o : CompileOptions} {sig : Signature}

/-- Encrypted values are related to the inputs of their names, as classified by a signature. -/
def Encodes (sig : Signature) (I : Interpretation V) (R : Vault → Value S → Meaning V → Prop)
    (inputs : SchemeValuation S) (v : Vault) : Prop :=
  ∀ name x, (name, x) ∈ inputs.entries → ∃ info, sig.inputs.find? name = some info ∧
    R v x ⟨info.type, I.input name info.type⟩

theorem encodes_encrypt (hS : S.Lasting) (hR : Endures P R) {context : Context} {keyId : KeyId}
    {valuation : Valuation} {noise : String → Noise}
    (hinput : ∀ name p x v v', (name, p) ∈ valuation.entries → P v →
      Runs (encryptInput S context keyId sig name p (noise name)) v (.ok x) v' → ∃ info,
        sig.inputs.find? name = some info ∧ R v' x ⟨info.type, I.input name info.type⟩)
    (hv : P v) (h : Runs (encrypt S context keyId valuation sig noise) v (.ok inputs) v') :
    P v' ∧ Encodes sig I R inputs v' := by
  refine encrypt_induct (P := fun found v => P v ∧ Encodes sig I R found v) h
    ⟨hv, by simp [Encodes]⟩ ?_
  rintro found k p y w w' hp ⟨hw, hfound⟩ hy
  have hgrown := grows_encryptInput hS context keyId sig k p (noise k) w _ w' hy
  refine ⟨hR.grows hgrown hw, fun name x hx => ?_⟩
  rcases OrderedMap.mem_entries_insert hx with heq | hx
  · cases heq
    exact hinput k p y w w' hp hw hy
  · obtain ⟨info, hinfo, hrelated⟩ := hfound name x hx
    exact ⟨info, hinfo, hR.stable hgrown hw hrelated⟩

/-- A machine starts with what its inputs denote, if they are related as the signature says. -/
theorem Starts.tracks (hg : g.Wellformed) (hrank : g.Ranked rank) (ht : g.Typed types)
    (hsig : g.signature types o = .ok sig) (hμ : g.Solves I scaleBits μ)
    (hinputs : Encodes sig I R inputs v) (h : Starts keys g inputs m) : m.Tracks R μ v := by
  refine (bindAll_induct (P := fun k => k.graph = g ∧ k.Tracks R μ v) h.bound
    ⟨rfl, by simp [Machine.Tracks]⟩ ?_).2
  rintro k id name x hx ⟨hgraph, hk⟩ hid -
  refine ⟨hgraph, hk.put ?_⟩
  rw [hgraph] at hid
  obtain ⟨info, hinfo, hrelated⟩ := hinputs name x hx
  -- The node is an input of this name and of the class that the signature gives it.
  obtain ⟨type, hn⟩ := hg.inputNodes name id ((OrderedMap.find?_eq_some hg.inputs).mp hid)
  have hoperands : g.operands id = [] := List.length_eq_zero_iff.mp (hg.arity _ hn)
  have hdenotes := hμ _ hn
  dsimp only at hdenotes
  rw [hoperands] at hdenotes
  have htype := (Graph.type_of_signature hg.toSound hsig hid hinfo).1
  rw [hμ.typed hg hrank ht (Graph.mem_ids_of_mem_nodes hn)] at htype
  rw [← Option.some.inj hdenotes] at htype ⊢
  cases Option.some.inj htype
  exact hrelated

variable (hsim : Simulates keys g I scaleBits P R) (hS : S.Lasting) (hg : g.Sound)
  (hμ : g.Solves I scaleBits μ) (hv : P v)
  (hstart : ∀ start, Starts keys g inputs start → start.Tracks R μ v)

include hsim hS hg hμ hv hstart

/-- Whenever an execution comes to a node, it holds what the nodes before denote. -/
theorem Reaches.tracks {node : NodeId} (h : Reaches keys g inputs v node m v') :
    m.Tracks R μ v' := by
  obtain ⟨start, before, after, left, hs, -, hpass⟩ := h
  exact ((hstart start hs).passes hsim hS hg hμ hs.frame.1 hs.frame.2 hv hpass).2

theorem execute_tracks (h : Runs (execute S keys g inputs) v (.ok outputs) v') :
    ∃ m : Machine S, m.graph = g ∧ m.keys = keys ∧ P v' ∧ m.Tracks R μ v' ∧
      m.outputs v' = (outputs, .ok ()) := by
  obtain ⟨start, order, left, m, hs, -, hpass, hout⟩ := execute_ok h
  obtain ⟨hv', hm⟩ := (hstart start hs).passes hsim hS hg hμ hs.frame.1 hs.frame.2 hv hpass
  exact ⟨m, hpass.frame.1.trans hs.frame.1, hpass.frame.2.trans hs.frame.2, hv', hm, hout⟩

end CipherGraph

import CipherGraph.Compile.Basic
import CipherGraph.Proofs.Encryption
import CipherGraph.Proofs.Typing

/-! # Classes of values

Every value that a machine holds has the class that was inferred for its node, if the inputs have
the classes that the signature gives them, as encrypted inputs do.
-/

namespace CipherGraph

variable {S : Scheme}

namespace Machine

variable {m m' : Machine S} {node : NodeId} {v v' : Vault} {x y z : Value S} {t : Typing}

theorem type_of_constant {c : Constant} (h : Runs (m.constant node c) v (.ok x) v') :
    x.type = .raw := by
  unfold Machine.constant at h
  split at h
  · cases (runs_throw.mp h).1
  · obtain ⟨_, _, -, h⟩ := runs_bind_ok.mp h
    cases (runs_pure.mp h).1
    rfl

theorem type_of_arithmetic {op : Arithmetic} (h : Runs (m.arithmetic node op y z) v (.ok x) v') :
    x.type = y.type.join z.type := by
  unfold Machine.arithmetic at h
  split at h
  · obtain ⟨_, _, -, h⟩ := runs_bind_ok.mp h
    cases (runs_pure.mp h).1
    rfl
  · obtain ⟨_, _, -, h⟩ := runs_bind_ok.mp h
    obtain ⟨_, _, -, h⟩ := runs_bind_ok.mp h
    cases (runs_pure.mp h).1
    rfl
  · split at h
    · obtain ⟨_, _, h, -⟩ := runs_bind_ok.mp h
      cases (runs_throw.mp h).1
    · obtain ⟨_, _, -, h⟩ := runs_bind_ok.mp h
      obtain ⟨_, _, -, h⟩ := runs_bind_ok.mp h
      cases (runs_pure.mp h).1
      rfl
  · obtain ⟨_, _, -, h⟩ := runs_bind_ok.mp h
    obtain ⟨_, _, -, h⟩ := runs_bind_ok.mp h
    cases (runs_pure.mp h).1
    rfl
  · cases (runs_throw.mp h).1
  · cases (runs_throw.mp h).1

theorem type_of_encode {scaleBits level : Nat}
    (h : Runs (m.encode node y scaleBits level) v (.ok x) v') : x.type = .plain := by
  unfold Machine.encode at h
  split at h
  · obtain ⟨_, _, -, h⟩ := runs_bind_ok.mp h
    obtain ⟨_, _, -, h⟩ := runs_bind_ok.mp h
    cases (runs_pure.mp h).1
    rfl
  · cases (runs_throw.mp h).1

theorem type_of_negate (h : Runs (m.negate node y) v (.ok x) v') : x.type = y.type := by
  unfold Machine.negate at h
  split at h
  · obtain ⟨_, _, -, h⟩ := runs_bind_ok.mp h
    cases (runs_pure.mp h).1
    rfl
  · cases (runs_throw.mp h).1
  · cases (runs_pure.mp h).1
    rfl

theorem type_of_rotate {steps : Nat} {left : Bool}
    (h : Runs (m.rotate node y steps left) v (.ok x) v') : x.type = y.type := by
  unfold Machine.rotate at h
  split at h
  · split at h
    · obtain ⟨_, _, h, -⟩ := runs_bind_ok.mp h
      cases (runs_throw.mp h).1
    · obtain ⟨_, _, -, h⟩ := runs_bind_ok.mp h
      cases (runs_pure.mp h).1
      rfl
  · cases (runs_throw.mp h).1
  · cases (runs_pure.mp h).1
    rfl

theorem type_of_unary {op : Operation} (h : Runs (m.unary node op y) v (.ok x) v') :
    x.type = op.result [y.type] := by
  unfold Machine.unary at h
  split at h
  · cases (runs_pure.mp h).1
    simp [Operation.result]
  · exact type_of_encode h
  · simpa [Operation.result] using type_of_negate h
  · simpa [Operation.result] using type_of_rotate h
  · simpa [Operation.result] using type_of_rotate h
  · cases (runs_throw.mp h).1

def WellTyped (t : Typing) (m : Machine S) : Prop :=
  ∀ id x, m.values.find? id = some x → t.find? id = some x.type

theorem WellTyped.trims (hm : m.WellTyped t) (h : Trims m m') : m'.WellTyped t :=
  fun id x hx => hm id x (h.values id x hx)

theorem WellTyped.put (hm : m.WellTyped t) (hx : t.find? node = some x.type) :
    (m.put node x).WellTyped t := OrderedMap.forall_find?_insert hx hm

theorem WellTyped.visit (hg : m.graph.Sound) (ht : m.graph.Typed t) (hm : m.WellTyped t)
    (h : Runs (m.visit node) v (.ok m') v') : m'.WellTyped t := by
  obtain ⟨rfl, -⟩ | ⟨op, x, hop, hinput, heval, rfl⟩ := visit_ok h
  · exact hm
  · refine hm.put ?_
    have hn := (Graph.op?_eq_ok hg.ascending).mp hop
    obtain ⟨c, rfl, hc⟩ | ⟨a, lhs, rhs, y, z, rfl, hoperands, hy, hz, ha⟩ |
      ⟨operand, y, hoperands, hy, hu⟩ := evaluate_ok (hg.arity _ hn) hinput heval
    · have hclasses : (m.graph.operands node).map t.find? = ([] : List ValueClass).map some := by
        rw [List.length_eq_zero_iff.mp (hg.arity _ hn)]
        rfl
      rw [type_of_constant hc]
      exact ht.find?_eq hg hn hclasses
    · have hclasses : (m.graph.operands node).map t.find? = [y.type, z.type].map some := by
        simp [hoperands, hm lhs y hy, hm rhs z hz]
      rw [type_of_arithmetic ha, ht.find?_eq hg hn hclasses]
      simp [Operation.result]
    · have hclasses : (m.graph.operands node).map t.find? = [y.type].map some := by
        simp [hoperands, hm operand y hy]
      rw [type_of_unary hu]
      exact ht.find?_eq hg hn hclasses

theorem WellTyped.passes {left left' : Remaining} {order : List NodeId} (hg : m.graph.Sound)
    (ht : m.graph.Typed t) (hm : m.WellTyped t) (h : Passes m left v order m' left' v') :
    m'.WellTyped t := by
  refine (h.induct (P := fun k => k.graph = m.graph ∧ k.WellTyped t) ⟨rfl, hm⟩ ?_ ?_).2
  · rintro k k' w w' node - ⟨hgraph, hk⟩ hvisit
    exact ⟨(visit_frame hvisit).1.trans hgraph, hk.visit (hgraph ▸ hg) (hgraph ▸ ht) hvisit⟩
  · rintro k k' ⟨hgraph, hk⟩ htrim
    exact ⟨htrim.graph.trans hgraph, hk.trims htrim⟩

theorem WellTyped.bindAll {l : List (String × Value S)} (hm : m.WellTyped t)
    (hl : ∀ name x, (name, x) ∈ l → ∀ id, m.graph.inputs.find? name = some id →
      t.find? id = some x.type)
    (h : m.bindAll l = (m', .ok ())) : m'.WellTyped t := by
  refine (bindAll_induct (P := fun k => k.graph = m.graph ∧ k.WellTyped t) h ⟨rfl, hm⟩ ?_).2
  rintro k node name x hx ⟨hgraph, hk⟩ hnode -
  exact ⟨hgraph, hk.put (hl name x hx node (hgraph ▸ hnode))⟩

end Machine

variable {g : Graph} {t : Typing} {o : CompileOptions} {sig : Signature}

theorem Graph.type_of_signature (hg : g.Sound) (h : g.signature t o = .ok sig) {name : String}
    {id : NodeId} {info : InputEncoding} (hid : g.inputs.find? name = some id)
    (hinfo : sig.inputs.find? name = some info) :
    t.find? id = some info.type ∧ info = inputEncoding o info.type := by
  unfold signature at h
  obtain ⟨inputs, hinputs, h⟩ := Except.bind_eq_ok.mp h
  obtain ⟨outputs, -, h⟩ := Except.bind_eq_ok.mp h
  cases h
  refine OrderedMap.find?_ofList_of_mapM
    (P := fun id info => t.find? id = some info.type ∧ info = inputEncoding o info.type)
    ?_ hg.inputs hinputs hid hinfo
  intro name id e he
  obtain ⟨type, htype, he⟩ := Except.bind_eq_ok.mp he
  cases he
  exact ⟨rfl, Typing.of_eq_ok.mp htype, rfl⟩

theorem Graph.width_of_signature (h : g.signature t o = .ok sig) : sig.width = g.width := by
  unfold signature at h
  obtain ⟨_, -, h⟩ := Except.bind_eq_ok.mp h
  obtain ⟨_, -, h⟩ := Except.bind_eq_ok.mp h
  cases h
  rfl

theorem Graph.outputType_of_signature (hg : g.Sound) (h : g.signature t o = .ok sig)
    {name : String} {id : NodeId} {type : ValueClass} (hid : g.outputs.find? name = some id)
    (htype : sig.outputs.find? name = some type) : t.find? id = some type := by
  unfold signature at h
  obtain ⟨_, -, h⟩ := Except.bind_eq_ok.mp h
  obtain ⟨outputs, houtputs, h⟩ := Except.bind_eq_ok.mp h
  cases h
  refine OrderedMap.find?_ofList_of_mapM (P := fun id type => t.find? id = some type)
    ?_ hg.outputs houtputs hid htype
  intro name id e he
  obtain ⟨type, htype, he⟩ := Except.bind_eq_ok.mp he
  cases he
  exact ⟨rfl, Typing.of_eq_ok.mp htype⟩

theorem type_of_encryptInput {context : Context} {keyId : KeyId} {name : String} {p : PlainValue}
    {noise : Noise} {v v' : Vault} {x : Value S}
    (h : Runs (encryptInput S context keyId sig name p noise) v (.ok x) v') :
    ∃ info, sig.inputs.find? name = some info ∧ x.type = info.type := by
  obtain ⟨info, slots, hinfo, -, hx⟩ := encryptInput_ok h
  exact ⟨info, hinfo, hx.type_eq⟩

/-- Values by name that are classified as a signature says. -/
def Conforms (sig : Signature) (inputs : SchemeValuation S) : Prop :=
  ∀ name x, (name, x) ∈ inputs.entries →
    ∃ info, sig.inputs.find? name = some info ∧ x.type = info.type

theorem conforms_encrypt {context : Context} {keyId : KeyId} {valuation : Valuation}
    {noise : String → Noise}
    {v v' : Vault} {inputs : SchemeValuation S}
    (h : Runs (encrypt S context keyId valuation sig noise) v (.ok inputs) v') :
    Conforms sig inputs := by
  intro name x hx
  obtain ⟨p, v₁, v₂, -, hrun⟩ := encrypt_ok h hx
  exact type_of_encryptInput hrun

theorem Starts.wellTyped {keys : Public S.kind} {inputs : SchemeValuation S} {m : Machine S}
    (hg : g.Sound) (hsig : g.signature t o = .ok sig) (hinputs : Conforms sig inputs)
    (h : Starts keys g inputs m) : m.WellTyped t := by
  refine Machine.WellTyped.bindAll (by simp [Machine.WellTyped]) ?_ h.bound
  intro name x hx id hid
  obtain ⟨info, hinfo, htype⟩ := hinputs name x hx
  rw [htype]
  exact (Graph.type_of_signature hg hsig hid hinfo).1

theorem Reaches.wellTyped {keys : Public S.kind} {inputs : SchemeValuation S} {node : NodeId}
    {m : Machine S} {v v' : Vault} (hg : g.Sound) (ht : g.Typed t)
    (hsig : g.signature t o = .ok sig) (hinputs : Conforms sig inputs)
    (h : Reaches keys g inputs v node m v') : m.WellTyped t := by
  obtain ⟨start, before, after, left, hstart, -, hpass⟩ := h
  have hgraph := hstart.frame.1
  exact (hstart.wellTyped hg hsig hinputs).passes (hgraph ▸ hg) (hgraph ▸ ht) hpass

end CipherGraph

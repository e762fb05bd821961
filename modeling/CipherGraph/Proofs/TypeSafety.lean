import CipherGraph.Proofs.Classes
import CipherGraph.Proofs.Compilation
import CipherGraph.Proofs.Lowering
import CipherGraph.Scheme.Gates

/-! # Type safety of executions

Every machine in the course of an execution holds values of the inferred classes, if the inputs
have the classes that their nodes declare. Outputs of a compiled graph are therefore what its
signature says, and a decryption never refuses them for their class.
-/

namespace CipherGraph

variable {S : Scheme} {g : Graph} {t : Typing} {keys : Public S.kind} {inputs : SchemeValuation S}
  {m : Machine S} {v v' : Vault}

/-- Every value is of the class that the input it is bound to declares. -/
def Declared (g : Graph) (inputs : SchemeValuation S) : Prop :=
  ∀ name x, (name, x) ∈ inputs.entries → ∀ id, g.inputs.find? name = some id →
    ∃ label, ⟨id, .input label x.type⟩ ∈ g.nodes

/-- The machines in the course of an execution: between two visits, and after a visit while the
operands of the node are being released. -/
inductive Occurs (keys : Public S.kind) (g : Graph) (inputs : SchemeValuation S) (v : Vault) :
    Machine S → Prop where
  | passed {start m : Machine S} {before after : List NodeId} {left : Machine.Remaining}
      {v₁ : Vault} (hstart : Starts keys g inputs start)
      (horder : g.forwardOrder = .ok (before ++ after))
      (hpass : Machine.Passes start g.useCounts v before m left v₁) : Occurs keys g inputs v m
  | visited {start m m' : Machine S} {before after released kept : List NodeId} {node : NodeId}
      {left : Machine.Remaining} {v₁ v₂ : Vault} (hstart : Starts keys g inputs start)
      (horder : g.forwardOrder = .ok (before ++ node :: after))
      (hpass : Machine.Passes start g.useCounts v before m left v₁)
      (hvisit : Runs (m.visit node) v₁ (.ok m') v₂)
      (hoperands : g.operands node = released ++ kept) :
      Occurs keys g inputs v (m'.freeOperands left released).1

theorem Graph.Typed.find?_input (ht : g.Typed t) (hg : g.Sound) {id : NodeId} {label : String}
    {type : ValueClass} (hn : ⟨id, .input label type⟩ ∈ g.nodes) : t.find? id = some type := by
  have hnil : g.operands id = [] := List.length_eq_zero_iff.mp (hg.arity _ hn)
  have hclasses : (g.operands id).map t.find? = ([] : List ValueClass).map some := by
    rw [hnil]
    rfl
  exact ht.find?_eq hg hn hclasses

theorem Starts.wellTyped_of_declared (h : Starts keys g inputs m) (hg : g.Sound) (ht : g.Typed t)
    (hinputs : Declared g inputs) : m.WellTyped t := by
  refine Machine.WellTyped.bindAll (by simp [Machine.WellTyped]) ?_ h.bound
  intro name x hx id hid
  obtain ⟨label, hn⟩ := hinputs name x hx id hid
  exact ht.find?_input hg hn

theorem Occurs.wellTyped (h : Occurs keys g inputs v m) (hg : g.Sound) (ht : g.Typed t)
    (hinputs : Declared g inputs) : m.WellTyped t := by
  have hpassed {start m : Machine S} {before : List NodeId} {left : Machine.Remaining} {v₁ : Vault}
      (hstart : Starts keys g inputs start)
      (hpass : Machine.Passes start g.useCounts v before m left v₁) :
      m.WellTyped t ∧ m.graph = g := by
    have hgraph := hstart.frame.1
    exact ⟨(hstart.wellTyped_of_declared hg ht hinputs).passes (hgraph ▸ hg) (hgraph ▸ ht) hpass,
      hpass.frame.1.trans hgraph⟩
  cases h with
  | passed hstart _ hpass => exact (hpassed hstart hpass).1
  | visited hstart _ hpass hvisit _ =>
    obtain ⟨hm, hgraph⟩ := hpassed hstart hpass
    exact (hm.visit (hgraph ▸ hg) (hgraph ▸ ht) hvisit).trims (Machine.trims_freeOperands ..)

theorem execute_occurs {out : SchemeValuation S}
    (h : Runs (execute S keys g inputs) v (.ok out) v') :
    ∃ m, Occurs keys g inputs v m ∧ m.graph = g ∧ m.outputs v' = (out, .ok ()) := by
  obtain ⟨start, order, left, m, hstart, ho, hpass, hout⟩ := execute_ok h
  rw [← List.append_nil order] at ho
  exact ⟨m, .passed hstart ho hpass, hpass.frame.1.trans hstart.frame.1, hout⟩

theorem Graph.signature_outputs {o : CompileOptions} {sig : Signature} (hg : g.Sound)
    (h : g.signature t o = .ok sig) : sig.outputs.keys = g.outputs.keys := by
  unfold Graph.signature at h
  obtain ⟨_, -, h⟩ := Except.bind_eq_ok.mp h
  obtain ⟨outputs, houtputs, h⟩ := Except.bind_eq_ok.mp h
  cases h
  have hkeys := (OrderedMap.mapM_entries (P := fun _ _ => True) (fun name id e he => by
    obtain ⟨type, -, he⟩ := Except.bind_eq_ok.mp he
    cases he
    exact ⟨rfl, trivial⟩) houtputs).1
  have hentries : (OrderedMap.ofList outputs).entries = outputs :=
    OrderedMap.entries_ofList (hkeys ▸ hg.outputs)
  rw [OrderedMap.keys, hentries]
  exact hkeys

theorem Machine.WellTyped.outputs {o : CompileOptions} {sig : Signature} {out : SchemeValuation S}
    (hm : m.WellTyped t) (hg : m.graph.Sound) (hsig : m.graph.signature t o = .ok sig)
    (hout : m.outputs v = (out, .ok ())) :
    (∀ name, (out.find? name).map Value.type = sig.outputs.find? name) ∧
      ∀ name x, (name, x) ∈ out.entries → sig.outputs.find? name = some x.type := by
  obtain ⟨hvalues, hnames⟩ := Machine.outputs_ok hout
  have hkeys := Graph.signature_outputs hg hsig
  have hentries (name : String) (x : Value S) (hx : (name, x) ∈ out.entries) :
      sig.outputs.find? name = some x.type := by
    obtain ⟨id, hid, hfound⟩ := hvalues name x hx
    have hmem : name ∈ sig.outputs.keys := hkeys ▸ List.mem_map_of_mem hid
    obtain ⟨type, htype⟩ := Option.isSome_iff_exists.mp (OrderedMap.contains_iff.mpr hmem)
    have hclass := Graph.outputType_of_signature hg hsig
      ((OrderedMap.find?_eq_some hg.outputs).mpr hid) htype
    rw [htype, ← hclass, hm id x hfound]
  refine ⟨fun name => ?_, hentries⟩
  cases hfound : out.find? name with
  | some x => exact (hentries name x (OrderedMap.mem_of_lookup hfound)).symm
  | none =>
    symm
    rw [Option.map_none, OrderedMap.find?_eq_none, hkeys]
    exact fun hname => OrderedMap.find?_eq_none.mp hfound (hnames name hname)

/-- The failure of a decryption that an output is of another class than expected. -/
def ExecError.isOutputClass : ExecError → Bool
  | .configuration (.outputClass ..) => true
  | _ => false

theorem EvalError.isOutputClass_alone (e : EvalError) : e.alone.isOutputClass = false := by
  cases e <;> rfl

theorem avoids_openValue (secret : Secret S.kind) (x : Value S) :
    Avoids ExecError.isOutputClass (openValue S secret x) := by
  cases x with
  | cipher c =>
    refine Avoids.bind ?_ fun _ => avoids_pure _
    intro v e v' h
    obtain ⟨r, -, hr⟩ := runs_alone.mp h
    cases r with
    | ok p => cases hr
    | error e =>
      cases hr
      exact e.isOutputClass_alone
  | plain p => exact avoids_pure _
  | raw slots => exact avoids_pure _

theorem avoids_decrypt (secret : Secret S.kind) {sig : Signature} {out : SchemeValuation S}
    (hclass : ∀ name x, (name, x) ∈ out.entries → ∀ type, sig.outputs.find? name = some type →
      type = x.type) : Avoids ExecError.isOutputClass (decrypt S secret out sig) := by
  unfold decrypt
  refine Avoids.foldlM (fun found e he => ?_) ∅
  obtain ⟨name, x⟩ := e
  have hrest : Avoids ExecError.isOutputClass (do
      let slots ← openValue S secret x
      return found.insert name (Slot.toPlain (slots.take sig.width))) :=
    (avoids_openValue secret x).bind fun _ => avoids_pure _
  dsimp only
  split
  · next type htype =>
    rw [if_neg (not_not.mpr (hclass name x he type htype))]
    exact hrest
  · exact hrest

/-- In the course of an execution whose inputs have the classes declared, every value is of the
class inferred for its node, which is inferred for all nodes of an acyclic graph that hides none.
If the graph is a compiled one, the outputs have the classes of its signature, and no decryption
refuses one of them for its class. -/
theorem execution_well_typed (hg : g.Sound) (hinputs : Declared g inputs) (v : Vault) :
    (g.hidden = [] → (∃ rank, g.Ranked rank) → ∃ t, g.inferTypes = .ok t) ∧
    (∀ t, g.inferTypes = .ok t → ∀ m, Occurs keys g inputs v m → m.WellTyped t) ∧
    ∀ (co : Compilation) (cg : CompiledGraph), co.Accepted → cg ∈ co.graphs → cg.graph = g →
      ∀ out v', Runs (execute S keys g inputs) v (.ok out) v' →
        (∀ name, (out.find? name).map Value.type = cg.signature.outputs.find? name) ∧
        ∀ (secret : Secret S.kind) w w' name expected found,
          ¬ Runs (decrypt S secret out cg.signature) w
            (.error (.configuration (.outputClass name expected found))) w' := by
  refine ⟨fun hv hranked => ?_, fun t ht m hm => ?_, ?_⟩
  · obtain ⟨order, ho⟩ := (hg.forwardOrder_ok_iff hv).mpr hranked
    exact hg.inferTypes_ok hv ho
  · exact hm.wellTyped hg (Graph.typed_of_inferTypes hg ht) hinputs
  · rintro co cg hco hcg rfl out v' hrun
    obtain ⟨_, -, o, _, _, hcompile⟩ := hco.compiled hcg
    obtain ⟨first, hstages⟩ := Graph.compile_ok hcompile
    obtain ⟨m, hm, hgraph, hout⟩ := execute_occurs hrun
    have hwell := hm.wellTyped hg (Graph.typed_of_inferTypes hg hstages.types) hinputs
    obtain ⟨hfound, hentries⟩ :=
      hwell.outputs (hgraph ▸ hg) (hgraph ▸ hstages.signature) hout
    refine ⟨hfound, fun secret w w' name expected found h => ?_⟩
    have hclass (name : String) (x : Value S) (hx : (name, x) ∈ out.entries) (type : ValueClass)
        (htype : cg.signature.outputs.find? name = some type) : type = x.type :=
      Option.some.inj (htype.symm.trans (hentries name x hx))
    exact Bool.noConfusion (avoids_decrypt secret hclass w _ w' h)

/-- The difference `z = y - x` of an encrypted `x` and a raw `y`, with `y` encoded. -/
def gateDifference : CompiledGraph where
  scheme := .bitwise
  graph :=
    { Graph.mixedDifference with
      nodes :=
        [⟨0, .input "x" .cipher⟩, ⟨1, .input "y" .raw⟩, ⟨3, .output "z"⟩, ⟨4, .encode 0 0⟩,
          ⟨5, .arithmetic .sub⟩]
      edges :=
        [⟨⟨5, 0⟩, ⟨3, 0⟩, 0⟩, ⟨⟨0, 0⟩, ⟨5, 0⟩, 1⟩, ⟨⟨4, 0⟩, ⟨5, 0⟩, 0⟩, ⟨⟨1, 0⟩, ⟨4, 0⟩, 0⟩] }
  types := ⟨[(0, .cipher), (1, .raw), (4, .plain), (5, .cipher), (3, .cipher)]⟩
  signature := ⟨1, ⟨[("x", ⟨.cipher, 0, 0⟩), ("y", ⟨.raw, 0, 0⟩)]⟩, ⟨[("z", .cipher)]⟩⟩
  requirements := ⟨[], 0, false, 1⟩
  report := ⟨1, 0, 0⟩

theorem compile_gateDifference :
    Runs (Graph.mixedDifference.compile ⟨.bitwise, 0⟩) ⟨[4]⟩ (.ok gateDifference) ⟨[6]⟩ := by
  unfold Runs
  cbv

theorem accepted_gateDifference : Compilation.Accepted (.graph gateDifference) :=
  .graph Graph.built_mixedDifference.reachable compile_gateDifference

def gateKeys : Public Scheme.bitwise.kind :=
  ⟨⟨0, .bitwise 8⟩, ⟨0, []⟩, some ⟨0, false, []⟩, rfl, rfl, by rintro _ ⟨⟩; rfl⟩

def vaultOfSix : Vault := ⟨[⟨1, [(0, ⟨0, 6⟩)], 0, 0⟩]⟩

def sixAndNine : SchemeValuation .bitwise :=
  ⟨[("x", .cipher (Gates.Ciphertext.mk 0 0 0)), ("y", .raw [(9 : UInt8)])]⟩

theorem declared_sixAndNine : Declared gateDifference.graph sixAndNine := by
  intro name x hx id hid
  rcases List.mem_cons.mp hx with heq | hx
  · cases heq
    cases hid
    exact ⟨"x", List.mem_cons_self⟩
  · cases List.mem_singleton.mp hx
    cases hid
    exact ⟨"y", List.mem_cons_of_mem _ List.mem_cons_self⟩

theorem execute_sixAndNine :
    Runs (execute .bitwise gateKeys gateDifference.graph sixAndNine) vaultOfSix
      (.ok ⟨[("z", .cipher (Gates.Ciphertext.mk 0 1 0))]⟩)
      ⟨[⟨2, [(1, ⟨0, 3⟩), (0, ⟨0, 6⟩)], 0, 0⟩]⟩ := by
  unfold Runs
  cbv

theorem execution_well_typed_gateDifference :
    ∃ out v', Runs (execute .bitwise gateKeys gateDifference.graph sixAndNine) vaultOfSix
        (.ok out) v' ∧
      (out.find? "z").map Value.type = some .cipher ∧
      ∀ (secret : Secret Scheme.bitwise.kind) w w' name expected found,
        ¬ Runs (decrypt .bitwise secret out gateDifference.signature) w
          (.error (.configuration (.outputClass name expected found))) w' := by
  have hsound := (accepted_gateDifference.reachable List.mem_cons_self).sound
  obtain ⟨-, -, h⟩ := execution_well_typed hsound declared_sixAndNine vaultOfSix
  obtain ⟨hclasses, hdecrypt⟩ :=
    h _ _ accepted_gateDifference List.mem_cons_self rfl _ _ execute_sixAndNine
  exact ⟨_, _, execute_sixAndNine, hclasses "z", hdecrypt⟩

end CipherGraph

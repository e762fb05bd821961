import CipherGraph.Proofs.Compilation
import CipherGraph.Proofs.Exactness
import CipherGraph.Proofs.Lowering

/-! # Round trips

Compiling a graph for the exact family, encrypting its inputs, executing and decrypting gives what
the outputs of the graph stand for, as long as no node of the graph loses its id to another one.
-/

namespace CipherGraph

/-- A graph is compiled, keys are made for it, and it is executed on inputs encrypted with either
half of them. -/
structure Executed (g : Graph) (o : CompileOptions) (config : SchemeConfig) (valuation : Valuation)
    (cg : CompiledGraph) (pub : Public .bfv) (sec : Secret .bfv)
    (outputs : SchemeValuation Scheme.bfv) : Prop where
  compiled : ∃ c c', Runs (g.compile o) c (.ok cg) c'
  generated : ∃ fresh cache cache' inUse v v', cache.Reachable ∧
    (keygen .bfv cg.scheme cg.requirements config fresh cache inUse).run v =
      ((cache', .ok (pub, sec)), v')
  executed : ∃ context key noise inputs v₁ v₁' v₂ v₂',
    ((context, key) = (pub.context, pub.keyId) ∨ (context, key) = (sec.context, sec.keyId)) ∧
      Runs (encrypt Scheme.bfv context key valuation cg.signature noise) v₁ (.ok inputs) v₁' ∧
        Runs (execute Scheme.bfv pub cg.graph inputs) v₂ (.ok outputs) v₂'

variable {g : Graph} {o : CompileOptions} {config : SchemeConfig} {valuation : Valuation}
  {cg : CompiledGraph} {pub : Public .bfv} {sec : Secret .bfv}
  {outputs : SchemeValuation Scheme.bfv} {V : Type} {I : Interpretation V}

namespace Graph

variable {first : Typing} {c : IdCounters}

/-- What a compilation keeps where it hides no node: the outputs denote the same. -/
theorem Stages.denotes (h : g.Stages o c first cg) (hg : g.Assembled)
    (hids : cg.graph.hidden = []) (hI : I.Lawful) :
    cg.graph.Wellformed ∧ ∀ name id, (name, id) ∈ g.outputs.entries →
      ∃ d, g.Denotes I o.scaleBits id d ∧ cg.graph.Denotes I o.scaleBits id d := by
  have hpath := path_lower g first ⟨o.scheme, o.scaleBits⟩ c
  have houtputs : (g.lower first ⟨o.scheme, o.scaleBits⟩ c).2.graph.outputs = g.outputs :=
    hpath.tables_eq.2
  have hlowered : (g.lower first ⟨o.scheme, o.scaleBits⟩ c).2.graph.hidden = [] := by
    rw [h.graph] at hids
    exact hids
  have hwf := hg.wellformed (hpath.hidden_eq_nil hlowered)
  obtain ⟨hwf', -⟩ := lower_wellformed hwf h.typed hlowered
  rw [h.graph]
  refine ⟨hwf'.removeDead, ?_⟩
  intro name id hid
  have hmem := mem_ids_of_mem_nodes (hwf.outputNodes name id hid)
  obtain ⟨d, hd, hd'⟩ := lower_denotes hI hwf h.typed hlowered hmem
  rw [← houtputs] at hid
  exact ⟨d, hd, hd'.removeDead hwf'
    (output_mem_live hid (mem_ids_of_mem_nodes (hwf'.outputNodes name id hid)))⟩

/-- Where a compilation hides no node, the nodes of its graph have meanings of the classes inferred,
and those of its outputs are what the outputs stand for in the graph that was compiled. -/
theorem Stages.solves (h : g.Stages o c first cg) (hg : g.Assembled)
    (hids : cg.graph.hidden = []) (hI : I.Lawful) :
    cg.graph.Wellformed ∧ cg.graph.Typed cg.types ∧ ∃ rank μ, cg.graph.Ranked rank ∧
      cg.graph.Solves I o.scaleBits μ ∧
        (∀ name id, (name, id) ∈ cg.graph.outputs.entries → ∀ type,
          cg.signature.outputs.find? name = some type → type = (μ id).type) ∧
        ∀ name id, (name, id) ∈ g.outputs.entries →
          (name, id) ∈ cg.graph.outputs.entries ∧ g.Denotes I o.scaleBits id (μ id) := by
  obtain ⟨hwf, hdenotes⟩ := h.denotes hg hids hI
  obtain ⟨order, ho, -⟩ := Except.bind_eq_ok.mp h.types
  obtain ⟨rank, hrank⟩ := (forwardOrder_ok_iff hwf).mp ⟨order, ho⟩
  have htyped := typed_of_inferTypes hwf.toSound h.types
  obtain ⟨μ, hμ⟩ := exists_solves I o.scaleBits hwf hrank
  have hnode (name : String) (id : NodeId) (hid : (name, id) ∈ cg.graph.outputs.entries) :
      id ∈ cg.graph.ids := mem_ids_of_mem_nodes (hwf.outputNodes name id hid)
  refine ⟨hwf, htyped, rank, μ, hrank, hμ, fun name id hid type htype => ?_, fun name id hid => ?_⟩
  · have hfind := (OrderedMap.find?_eq_some hwf.outputs).mpr hid
    have htype := outputType_of_signature hwf.toSound h.signature hfind htype
    exact Option.some.inj (htype.symm.trans (hμ.typed hwf hrank htyped (hnode name id hid)))
  · have hmem : (name, id) ∈ cg.graph.outputs.entries := h.outputs_eq.symm ▸ hid
    obtain ⟨d, hd, hd'⟩ := hdenotes name id hid
    cases hd'.unique (hμ.denotes hwf hrank (hnode name id hmem))
    exact ⟨hmem, hd⟩

end Graph

section Start

variable {m : Machine Scheme.bfv} {w t scaleBits : Nat} {types : Typing}
  {μ : NodeId → Meaning (Lanes w t)} {rank : NodeId → Nat} {sig : Signature}
  {inputs : SchemeValuation Scheme.bfv} {v v' : Vault}

theorem execute_realizes (hg : g.Wellformed) (hrank : g.Ranked rank) (ht : g.Typed types)
    (hsig : g.signature types o = .ok sig)
    (hμ : g.Solves (exactMeaning w t valuation) scaleBits μ) (hp : pub.context.Packs t)
    (hwidth : g.width = w) (hw : 0 < w) (hnames : valuation.keys.Nodup)
    {noise : String → Noise}
    (hencrypt : Runs (encrypt Scheme.bfv pub.context pub.keyId valuation sig noise) v (.ok inputs)
      v')
    {u u' : Vault} (h : Runs (execute Scheme.bfv pub g inputs) u (.ok outputs) u') :
    ∃ m : Machine Scheme.bfv, m.graph = g ∧ m.keys = pub ∧ w ≤ pub.context.slotCount ∧
      m.Realizes μ ∧ m.outputs u' = (outputs, .ok ()) := by
  obtain ⟨start, -, -, -, hstart, -⟩ := execute_ok h
  have hdvd : w ∣ pub.context.slotCount := hwidth ▸ Nat.dvd_of_mod_eq_zero hstart.fits.2
  have hinputs : Encodes sig (exactMeaning w t valuation)
      (fun _ => Represents pub.context.slotCount pub.keyId) inputs u := by
    intro name x hx
    obtain ⟨p, v₁, v₂, hp', hrun⟩ := encrypt_ok hencrypt hx
    exact represents_encryptInput hp hw hdvd ((Graph.width_of_signature hsig).trans hwidth)
      ((OrderedMap.find?_eq_some hnames).mpr hp') hrun
  obtain ⟨m, hgraph, rfl, -, hm, hout⟩ := execute_tracks
    (simulates_exact hp hwidth hw hdvd scaleBits) lasting_bfv hg.toSound hμ trivial
    (fun start hs => hs.tracks hg hrank ht hsig hμ hinputs) h
  exact ⟨m, hgraph, rfl, hwidth ▸ hstart.fits.1, hm, hout⟩

end Start

section Finish

variable {m : Machine Scheme.bfv} {w t : Nat} {μ : NodeId → Meaning (Lanes w t)} {sig : Signature}
  {v v' : Vault}

theorem Machine.Realizes.opens (h : m.Realizes μ) (hp : m.context.Packs t)
    (hle : w ≤ m.context.slotCount) (hcontext : sec.context = m.context)
    (hkey : sec.keyId = m.keys.keyId) (hnames : m.graph.outputs.keys.Nodup)
    (hout : m.outputs v' = (outputs, .ok ())) {name : String} {x : Value Scheme.bfv}
    (hx : (name, x) ∈ outputs.entries) :
    ∃ id, m.graph.outputs.find? name = some id ∧ x.type = (μ id).type ∧
      ∃ slots : List Int64, Runs (openValue Scheme.bfv sec x) v (.ok slots) v ∧
        (slots.take w).map Int64.toInt = spread w (μ id).value.lift := by
  obtain ⟨id, hid, hfound⟩ := (Machine.outputs_ok hout).1 name x hx
  have hrep : Represents sec.context.slotCount sec.keyId x (μ id) := by
    rw [hcontext, hkey]
    exact h id x hfound
  rw [← hcontext] at hp hle
  exact ⟨id, (OrderedMap.find?_eq_some hnames).mpr hid, hrep.type_eq, hrep.opens hp hle⟩

theorem Machine.Realizes.decrypt (h : m.Realizes μ) (hp : m.context.Packs t)
    (hle : w ≤ m.context.slotCount) (hcontext : sec.context = m.context)
    (hkey : sec.keyId = m.keys.keyId) (hnames : m.graph.outputs.keys.Nodup)
    (hout : m.outputs v' = (outputs, .ok ())) (hwidth : sig.width = w)
    (hsig : ∀ name id, m.graph.outputs.find? name = some id → ∀ type,
      sig.outputs.find? name = some type → type = (μ id).type) :
    ∃ found, Runs (decrypt Scheme.bfv sec outputs sig) v (.ok found) v ∧
      ∀ name id, m.graph.outputs.find? name = some id → ∃ l : List Int64,
        found.find? name = some (.integers l) ∧
          l.map Int64.toInt = spread w (μ id).value.lift := by
  have hopens {name : String} {x : Value Scheme.bfv} (hx : (name, x) ∈ outputs.entries) :=
    h.opens (v := v) hp hle hcontext hkey hnames hout hx
  have hclass (name : String) (x : Value Scheme.bfv) (hx : (name, x) ∈ outputs.entries) :
      ∀ type, sig.outputs.find? name = some type → type = x.type := by
    intro type htype
    obtain ⟨id, hid, hclass, -⟩ := hopens hx
    exact (hsig name id hid type htype).trans hclass.symm
  obtain ⟨found, hrun, hfound⟩ := decrypt_opened hclass fun name x hx => by
    obtain ⟨-, -, -, slots, hslots, -⟩ := hopens hx
    exact ⟨slots, hslots⟩
  refine ⟨found, hrun, fun name id hid => ?_⟩
  have hname := (Machine.outputs_ok hout).2 name
    (List.mem_map_of_mem ((OrderedMap.find?_eq_some hnames).mp hid))
  obtain ⟨x, slots, hx, hslots, hfind⟩ := hfound name hname
  obtain ⟨id', hid', -, slots', hslots', hints⟩ := hopens hx
  cases hid.symm.trans hid'
  cases (hslots.unique hslots').1
  rw [hwidth] at hfind
  exact ⟨slots.take w, hfind, hints⟩

end Finish

/-- What is decrypted for the outputs of a graph is what they stand for in the graph that was
compiled: as many integers as the graph is wide. -/
theorem decrypt_executed (hg : g.Assembled) (hnames : valuation.keys.Nodup)
    (h : Executed g o config valuation cg pub sec outputs) (hids : cg.graph.hidden = [])
    (v : Vault) :
    ∃ found, Runs (decrypt Scheme.bfv sec outputs cg.signature) v (.ok found) v ∧
      ∀ name id, (name, id) ∈ g.outputs.entries → ∃ d l,
        g.Denotes (exactMeaning g.width config.plainModulus.toNat valuation) o.scaleBits id d ∧
          found.find? name = some (.integers l) ∧
            l.map Int64.toInt = (List.range g.width).map fun i : Nat => d.value.lift i := by
  obtain ⟨⟨c, c', hcompile⟩, ⟨fresh, cache, cache', inUse, u, u', hcache, hkeys⟩,
    context, key, noise, inputs, v₁, v₁', v₂, v₂', hhalf, hencrypt, hexecute⟩ := h
  obtain ⟨first, hstages⟩ := Graph.compile_ok hcompile
  obtain ⟨-, context', hpacks, hpair⟩ := keygen_packs hcache hkeys
  have hsec : sec.context = pub.context := hpair.context.2.trans hpair.context.1.symm
  -- Both halves of the keys encrypt alike.
  obtain ⟨rfl, rfl⟩ : context = pub.context ∧ key = pub.keyId := by
    rcases hhalf with heq | heq <;> cases heq
    · exact ⟨rfl, rfl⟩
    · exact ⟨hsec, hpair.keyId_eq⟩
  have hpub : pub.context.Packs config.plainModulus.toNat := hpair.context.1 ▸ hpacks
  have hlawful := exactMeaning_lawful g.width config.plainModulus.toNat valuation
  obtain ⟨hwf, hdenotes⟩ := hstages.denotes hg hids hlawful
  obtain ⟨order, ho, -⟩ := Except.bind_eq_ok.mp hstages.types
  obtain ⟨rank, hrank⟩ := (Graph.forwardOrder_ok_iff hwf).mp ⟨order, ho⟩
  have htyped := Graph.typed_of_inferTypes hwf.toSound hstages.types
  obtain ⟨μ, hμ⟩ := Graph.exists_solves
    (exactMeaning g.width config.plainModulus.toNat valuation) o.scaleBits hwf hrank
  have hwidth := (Graph.width_of_signature hstages.signature).trans hstages.width_eq
  obtain ⟨m, hgraph, rfl, hle, hm, hout⟩ := execute_realizes hwf hrank htyped hstages.signature hμ
    hpub hstages.width_eq hg.width_pos hnames hencrypt hexecute
  have hnodes (name : String) (id : NodeId) (hid : m.graph.outputs.find? name = some id) :
      (name, id) ∈ cg.graph.outputs.entries := by
    rw [hgraph] at hid
    exact (OrderedMap.find?_eq_some hwf.outputs).mp hid
  have hclass (name : String) (id : NodeId) (hid : m.graph.outputs.find? name = some id) :
      ∀ type, cg.signature.outputs.find? name = some type → type = (μ id).type := by
    intro type htype
    have hmem := Graph.mem_ids_of_mem_nodes (hwf.outputNodes name id (hnodes name id hid))
    rw [hgraph] at hid
    have htype := Graph.outputType_of_signature hwf.toSound hstages.signature hid htype
    exact Option.some.inj (htype.symm.trans (hμ.typed hwf hrank htyped hmem))
  obtain ⟨found, hrun, hfound⟩ := hm.decrypt (v := v) hpub hle hsec hpair.keyId_eq
    (hgraph ▸ hwf.outputs) hout hwidth hclass
  refine ⟨found, hrun, ?_⟩
  intro name id hid
  obtain ⟨d, hd, hd'⟩ := hdenotes name id hid
  have hmem : (name, id) ∈ cg.graph.outputs.entries := hstages.outputs_eq.symm ▸ hid
  have hnode := Graph.mem_ids_of_mem_nodes (hwf.outputNodes name id hmem)
  cases hd'.unique (hμ.denotes hwf hrank hnode)
  have hfind : m.graph.outputs.find? name = some id := by
    rw [hgraph]
    exact (OrderedMap.find?_eq_some hwf.outputs).mpr hmem
  obtain ⟨l, hl, hints⟩ := hfound name id hfind
  exact ⟨μ id, l, hd, hl, hints⟩

/-- The difference `d = p - c` of a plain `p` and an encrypted `c`, and `z = c`. -/
def difference : Graph :=
  { Graph.blank "g" 1 ⟨0⟩ with
    nodes :=
      [⟨0, .input "c" .cipher⟩, ⟨1, .input "p" .plain⟩, ⟨2, .arithmetic .sub⟩, ⟨3, .output "d"⟩,
        ⟨5, .output "z"⟩]
    edges := [⟨⟨0, 0⟩, ⟨5, 0⟩, 0⟩, ⟨⟨2, 0⟩, ⟨3, 0⟩, 0⟩, ⟨⟨0, 0⟩, ⟨2, 0⟩, 1⟩, ⟨⟨1, 0⟩, ⟨2, 0⟩, 0⟩]
    inputs := ⟨[("c", 0), ("p", 1)]⟩
    outputs := ⟨[("d", 3), ("z", 5)]⟩ }

theorem assembled_difference : difference.Assembled := by
  have hcreate : Graph.create "g" 1 ⟨0⟩ = .ok (.blank "g" 1 ⟨0⟩) := rfl
  have h₀ : (Graph.blank "g" 1 ⟨0⟩).Assembled := .create hcreate
  have h₁ := h₀.extend ⟨[0]⟩ (.input "c" .cipher) [] rfl (by simp) rfl
  have h₂ := h₁.extend ⟨[1]⟩ (.input "p" .plain) [] rfl (by simp) rfl
  have h₃ := h₂.extend ⟨[2]⟩ (.arithmetic .sub) [1, 0] rfl (by decide) trivial
  have h₄ := h₃.extend ⟨[3]⟩ (.output "d") [2] rfl (by decide) rfl
  exact h₄.extend ⟨[5]⟩ (.output "z") [0] rfl (by decide) rfl

def fiveAndSeven : Valuation := ⟨[("c", .integer 5), ("p", .integer 7)]⟩

theorem denotes_difference : difference.Denotes (exactMeaning 1 12289 fiveAndSeven) 0 5
    ⟨.cipher, .coded fun _ => 5⟩ := by
  have hlanes : fiveAndSeven.lanes 1 "c" = fun _ => 5 := by
    funext i
    rw [Subsingleton.elim i 0]
    rfl
  have hinput : difference.Denotes (exactMeaning 1 12289 fiveAndSeven) 0 0
      ⟨.cipher, .coded fun _ => 5⟩ := by
    have hop : difference.op? 0 = .ok (.input "c" .cipher) := rfl
    have hoperands : difference.operands 0 = [] := Graph.operands_eq_reverse (by decide)
    have hargs : ∀ o ∈ difference.operands 0,
        difference.Denotes (exactMeaning 1 12289 fiveAndSeven) 0 o ⟨.raw, .clear fun _ => 0⟩ := by
      rw [hoperands]
      simp
    refine .node hop hargs ?_
    rw [hoperands]
    simp [Interpretation.apply, exactMeaning, hlanes]
  have hop : difference.op? 5 = .ok (.output "z") := rfl
  have hoperands : difference.operands 5 = [0] := Graph.operands_eq_reverse (by decide)
  have hargs : ∀ o ∈ difference.operands 5,
      difference.Denotes (exactMeaning 1 12289 fiveAndSeven) 0 o
        ⟨.cipher, .coded fun _ => 5⟩ := by
    rw [hoperands]
    intro o ho
    cases List.mem_singleton.mp ho
    exact hinput
  refine .node hop hargs ?_
  rw [hoperands]
  rfl

/-- The compiled difference `d = -c + p`, made of ids that no node has. -/
def freshDifference : CompiledGraph where
  scheme := .bfv
  graph :=
    { difference with
      nodes :=
        [⟨0, .input "c" .cipher⟩, ⟨1, .input "p" .plain⟩, ⟨3, .output "d"⟩, ⟨5, .output "z"⟩,
          ⟨6, .negate⟩, ⟨7, .arithmetic .add⟩]
      edges :=
        [⟨⟨7, 0⟩, ⟨3, 0⟩, 0⟩, ⟨⟨1, 0⟩, ⟨7, 0⟩, 1⟩, ⟨⟨6, 0⟩, ⟨7, 0⟩, 0⟩, ⟨⟨0, 0⟩, ⟨6, 0⟩, 0⟩,
          ⟨⟨0, 0⟩, ⟨5, 0⟩, 0⟩] }
  types := ⟨[(0, .cipher), (1, .plain), (5, .cipher), (6, .cipher), (7, .cipher), (3, .cipher)]⟩
  signature :=
    ⟨1, ⟨[("c", ⟨.cipher, 0, 0⟩), ("p", ⟨.plain, 0, 0⟩)]⟩, ⟨[("d", .cipher), ("z", .cipher)]⟩⟩
  requirements := ⟨[], 0, false, 1⟩
  report := ⟨0, 0, 1⟩

/-- The same with ids from 4 on: the sum gets the id of the output `z`. -/
def reusedDifference : CompiledGraph :=
  { freshDifference with
    graph :=
      { difference with
        nodes :=
          [⟨0, .input "c" .cipher⟩, ⟨1, .input "p" .plain⟩, ⟨3, .output "d"⟩, ⟨4, .negate⟩,
            ⟨5, .arithmetic .add⟩]
        hidden := [5]
        edges :=
          [⟨⟨5, 1⟩, ⟨3, 0⟩, 0⟩, ⟨⟨1, 0⟩, ⟨5, 1⟩, 1⟩, ⟨⟨4, 0⟩, ⟨5, 1⟩, 0⟩, ⟨⟨0, 0⟩, ⟨4, 0⟩, 0⟩,
            ⟨⟨0, 0⟩, ⟨5, 0⟩, 0⟩] }
    types := ⟨[(0, .cipher), (1, .plain), (4, .cipher), (5, .cipher), (3, .cipher)]⟩ }

def exactConfig : SchemeConfig :=
  { SchemeConfig.default with
    degree := some 1024
    plainModulus := 12289
    seed := some 7 }

def exactContext : Context := ⟨0, .bfv 1024 12289⟩

def filled (keyId : KeyId) (r : UInt64) : Exact.Ciphertext := ⟨keyId, 0, 0, List.replicate 1024 r⟩

def encryptedFive (keyId : KeyId) : SchemeValuation .bfv :=
  ⟨[("c", .cipher (filled keyId 5)), ("p", .plain ⟨0, 0, List.replicate 1024 7⟩)]⟩

def twoAnd (keyId : KeyId) (r : UInt64) : SchemeValuation .bfv :=
  ⟨[("d", .cipher (filled keyId 2)), ("z", .cipher (filled keyId r))]⟩

set_option maxRecDepth 20000 in
theorem encrypt_fiveAndSeven (keyId : KeyId) (v : Vault) :
    Runs (encrypt .bfv exactContext keyId fiveAndSeven freshDifference.signature) v
      (.ok (encryptedFive keyId)) v := by
  unfold Runs
  rfl

def boundDifference (g : Graph) (pub : Public SchemeKind.bfv) : Machine .bfv :=
  ⟨g, pub, ⟨[(0, .cipher (filled pub.keyId 5)), (1, .plain ⟨0, 0, List.replicate 1024 7⟩)]⟩⟩

/-- The difference is executed with new keys, whatever it is compiled to. -/
theorem exists_executed {c c' : IdCounters} {r : UInt64}
    (hcompile : Runs (difference.compile ⟨.bfv, 0⟩) c (.ok cg) c')
    (hscheme : cg.scheme = .bfv) (hsig : cg.signature = freshDifference.signature)
    (hrequirements : cg.requirements = freshDifference.requirements)
    (hinputs : cg.graph.inputs = difference.inputs)
    (hrun : ∀ pub : Public SchemeKind.bfv, pub.context = exactContext → ∃ m,
      (boundDifference cg.graph pub).run.run .empty =
        ((m, .ok (twoAnd pub.keyId r)), .empty)) :
    ∃ pub sec, Executed difference ⟨.bfv, 0⟩ exactConfig fiveAndSeven cg pub sec
      (twoAnd sec.keyId r) ∧ sec.context = exactContext := by
  have hselect : Parameters.select .bfv freshDifference.requirements exactConfig =
      .ok exactContext.params := rfl
  have hcache : ((ContextCache.create 1).getOrCreate exactContext.params fun _ => true).run .empty =
      ((⟨1, [(exactContext.params, exactContext)]⟩, .ok exactContext), ⟨[.empty]⟩) := rfl
  obtain ⟨pub, sec, hkeys, hpair⟩ := exists_keygen hselect hcache rfl rfl (.ofSeed 7)
  have hcontext := hpair.context.1
  have hencrypt := encrypt_fiveAndSeven pub.keyId .empty
  have hc : cg.graph.inputs.find? "c" = some 0 := by
    rw [hinputs]
    decide
  have hp : cg.graph.inputs.find? "p" = some 1 := by
    rw [hinputs]
    decide
  have hstarts : Starts pub cg.graph (encryptedFive pub.keyId) (boundDifference cg.graph pub) := by
    obtain ⟨first, hstages⟩ := Graph.compile_ok hcompile
    constructor
    · rw [hcontext, hstages.width_eq]
      decide
    · rw [encryptedFive, Machine.bindAll_cons hc (by rintro _ ⟨⟩; rfl),
        Machine.bindAll_cons hp (by rintro _ ⟨⟩)]
      rfl
  rw [← hcontext, ← hsig] at hencrypt
  refine ⟨pub, sec, ⟨⟨c, c', hcompile⟩, ?_, ?_⟩, hpair.context.2⟩
  · rw [hscheme, hrequirements]
    exact ⟨_, _, _, _, _, _, .create 1, hkeys⟩
  · rw [hpair.keyId_eq]
    exact ⟨_, _, _, _, _, _, _, _, .inl rfl, hencrypt,
      (runs_execute_of_starts hstarts).mpr (hrun pub hcontext)⟩

theorem compile_freshDifference :
    Runs (difference.compile ⟨.bfv, 0⟩) ⟨[6]⟩ (.ok freshDifference) ⟨[8]⟩ := by
  unfold Runs
  cbv

set_option maxRecDepth 20000 in
theorem run_freshDifference (pub : Public SchemeKind.bfv) (hpub : pub.context = exactContext) :
    ∃ m, (boundDifference freshDifference.graph pub).run.run .empty =
      ((m, .ok (twoAnd pub.keyId 5)), .empty) := by
  obtain ⟨context, key, keys, hscheme, hconsistent, howned⟩ := pub
  cases hpub
  refine ⟨⟨freshDifference.graph, ⟨_, key, keys, hscheme, hconsistent, howned⟩,
    ⟨[(5, .cipher (filled key.keyId 5)), (3, .cipher (filled key.keyId 2))]⟩⟩, ?_⟩
  cbv

theorem decrypt_executed_difference :
    ∃ pub sec found, Executed difference ⟨.bfv, 0⟩ exactConfig fiveAndSeven freshDifference pub sec
        (twoAnd sec.keyId 5) ∧
      Runs (decrypt Scheme.bfv sec (twoAnd sec.keyId 5) freshDifference.signature) .empty
        (.ok found) .empty ∧
      ∃ l, found.find? "z" = some (.integers l) ∧ l.map Int64.toInt = [5] := by
  obtain ⟨pub, sec, hexecuted, -⟩ := exists_executed compile_freshDifference rfl rfl rfl rfl
    run_freshDifference
  obtain ⟨found, hrun, hfound⟩ := decrypt_executed assembled_difference (by decide) hexecuted rfl
    .empty
  obtain ⟨d, l, hd, hl, hints⟩ := hfound "z" 5 (by decide)
  cases hd.unique denotes_difference
  exact ⟨pub, sec, found, hexecuted, hrun, l, hl, hints⟩

theorem compile_reusedDifference :
    Runs (difference.compile ⟨.bfv, 0⟩) ⟨[4]⟩ (.ok reusedDifference) ⟨[6]⟩ := by
  unfold Runs
  cbv

set_option maxRecDepth 20000 in
theorem run_reusedDifference (pub : Public SchemeKind.bfv) (hpub : pub.context = exactContext) :
    ∃ m, (boundDifference reusedDifference.graph pub).run.run .empty =
      ((m, .ok (twoAnd pub.keyId 2)), .empty) := by
  obtain ⟨context, key, keys, hscheme, hconsistent, howned⟩ := pub
  cases hpub
  refine ⟨⟨reusedDifference.graph, ⟨_, key, keys, hscheme, hconsistent, howned⟩,
    ⟨[(0, .cipher (filled key.keyId 5)), (5, .cipher (filled key.keyId 2)),
      (3, .cipher (filled key.keyId 2))]⟩⟩, ?_⟩
  cbv

/-- With the id of `z` given to the sum, what is decrypted for `z` is the difference. -/
theorem decrypt_reusedDifference :
    ∃ pub sec found, Executed difference ⟨.bfv, 0⟩ exactConfig fiveAndSeven reusedDifference pub sec
        (twoAnd sec.keyId 2) ∧
      Runs (decrypt Scheme.bfv sec (twoAnd sec.keyId 2) reusedDifference.signature) .empty
        (.ok found) .empty ∧
      found.find? "z" = some (.integers [2]) ∧
      ¬ ∃ d l, difference.Denotes (exactMeaning 1 12289 fiveAndSeven) 0 5 d ∧
        found.find? "z" = some (.integers l) ∧
          l.map Int64.toInt = (List.range 1).map fun i : Nat => d.value.lift i := by
  obtain ⟨pub, sec, hexecuted, hcontext⟩ := exists_executed compile_reusedDifference rfl rfl rfl rfl
    run_reusedDifference
  have hopen (x : Value Scheme.bfv) (hx : x = .cipher (filled sec.keyId 2)) :
      ∃ slots : List Int64, Runs (openValue Scheme.bfv sec x) .empty (.ok slots) .empty ∧
        Slot.toPlain (slots.take 1) = PlainValue.integers [2] := by
    subst hx
    refine ⟨_, runs_openValue_cipher rfl, ?_⟩
    rw [hcontext, Exact.decode, filled, List.map_replicate, List.take_replicate]
    rfl
  have hvalues : ∀ name x, (name, x) ∈ (twoAnd sec.keyId 2).entries →
      (name = "d" ∨ name = "z") ∧ x = .cipher (filled sec.keyId 2) := by
    intro name x hx
    rcases List.mem_cons.mp hx with heq | hx
    · cases heq
      exact ⟨.inl rfl, rfl⟩
    · cases List.mem_singleton.mp hx
      exact ⟨.inr rfl, rfl⟩
  have hclass : ∀ name x, (name, x) ∈ (twoAnd sec.keyId 2).entries → ∀ type,
      reusedDifference.signature.outputs.find? name = some type → type = x.type := by
    intro name x hx type htype
    obtain ⟨rfl | rfl, rfl⟩ := hvalues name x hx <;> cases htype <;> rfl
  obtain ⟨found, hrun, hfound⟩ := decrypt_of_opens hclass
    fun name x hx => hopen x (hvalues name x hx).2
  have hz := hfound "z" (by simp [twoAnd, OrderedMap.keys])
  refine ⟨pub, sec, found, hexecuted, hrun, hz, ?_⟩
  rintro ⟨d, l, hd, hl, hints⟩
  cases hd.unique denotes_difference
  cases hz.symm.trans hl
  exact absurd hints (by decide)

end CipherGraph

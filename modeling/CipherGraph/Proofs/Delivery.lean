import CipherGraph.Proofs.Contexts
import CipherGraph.Proofs.Disclosure
import CipherGraph.Proofs.Supplies

/-! # What a bundle delivers

A bundle that was written is read back with the sections that its grants select and no others. Each
is what was supplied, and graphs are restored on spaces of their own.
-/

namespace CipherGraph

variable {kind : SchemeKind} {m : Material kind} {f : Grants} {p : Parameters} {c : IdCounters}

namespace Material

variable {context : Context}

theorem Supplies.publicHalf_sections (h : m.Supplies f) (hs : context.scheme = kind) :
    ∃ half, (m.sections f p).publicHalf kind context = .ok half ∧
      half.map (·.key) = whereGranted f.carriesPublicKey m.publicKey? ∧
      half.bind (·.evaluationKeys) = whereGranted f.execution m.evaluationKeys? ∧
      ∀ pub ∈ half, pub.context = context := by
  cases hgranted : f.carriesPublicKey with
  | false =>
    have hx : f.execution = false := (Bool.or_eq_false_iff.mp hgranted).1
    refine ⟨none, ?_, rfl, by rw [hx]; rfl, by simp⟩
    simp [BundleSections.publicHalf, sections, hgranted]
  | true =>
    obtain ⟨pub, hpub⟩ := Option.isSome_iff_exists.mp (h.publicHalf hgranted)
    have howned : ∀ keys, whereGranted f.execution m.evaluationKeys? = some keys →
        keys.keyId = pub.key.keyId := by
      intro keys hkeys
      have hheld := (mem_whereGranted.mp hkeys).2
      rw [evaluationKeys?, hpub] at hheld
      exact pub.owned keys hheld
    have hkey : (m.sections f p).publicKey = some pub.key := by
      simp [sections, hgranted, publicKey?, hpub]
    refine ⟨some ⟨context, pub.key, _, hs, pub.consistent, howned⟩, ?_, ?_, rfl, ?_⟩
    · rw [BundleSections.publicHalf, hkey]
      exact congrArg (some <$> ·) (Public.create_of_owned hs pub.consistent howned)
    · simp [publicKey?, hpub]
    · rintro _ ⟨⟩
      rfl

/-- The secret half fits the public one, since the halves supplied did. -/
theorem Supplies.secretHalf_sections (h : m.Supplies f) (hchecked : m.checked = .ok p)
    (hs : context.scheme = kind) {half : Option (Public kind)}
    (hhalf : half.map (·.key) = whereGranted f.carriesPublicKey m.publicKey?) :
    ∃ secret, (m.sections f p).secretHalf kind context half = .ok secret ∧
      secret.map (·.key) = whereGranted f.decryption m.secretKey? ∧
      ∀ sec ∈ secret, sec.context = context := by
  cases hgranted : f.decryption with
  | false =>
    refine ⟨none, ?_, rfl, by simp⟩
    simp [BundleSections.secretHalf, sections, hgranted, pure, Except.pure]
  | true =>
    obtain ⟨sec, hsec⟩ := Option.isSome_iff_exists.mp (h.secretHalf hgranted)
    have hkey : (m.sections f p).secretKey = some sec.key := by
      simp [sections, hgranted, secretKey?, hsec]
    -- Only the key of the public half came back, but the fingerprint is part of it.
    have hmatch : half.any (·.keyId != sec.keyId) = false := by
      cases half with
      | none => rfl
      | some pub' =>
        obtain ⟨pub, hpub, hpubkey⟩ := Option.bind_eq_some_iff.mp (mem_whereGranted.mp hhalf.symm).2
        have hsame : pub.key = pub'.key := Option.some.inj hpubkey
        have hid : pub'.keyId = sec.keyId := by
          rw [Public.keyId, ← hsame]
          exact keyId_of_checked hchecked hpub hsec
        simp [hid]
    refine ⟨some ⟨context, sec.key, hs⟩, ?_, ?_, ?_⟩
    · simp only [BundleSections.secretHalf, hkey, Secret.create_of_scheme hs, bind, Except.bind]
      exact if_neg (Bool.eq_false_iff.mp hmatch)
    · simp [secretKey?, hsec]
    · rintro _ ⟨⟩
      rfl

end Material

/-- What is restored of a compilation: one graph or one group, with graphs like the compiled ones,
whose counter stands where it was recorded, or past the ids. -/
inductive Compilation.Restored (recorded c : IdCounters) :
    Option Compilation → Option Graph → Option Group → Prop where
  | nothing : Restored recorded c none none none
  | graph {cg : CompiledGraph} {g : Graph} (alike : cg.graph.Alike g)
    (next : c.peek g.space = (cg.graph.toRecord recorded).resumed) :
    Restored recorded c (some (.graph cg)) (some g) none
  | group {cg : CompiledGroup} {gr : Group} (name : gr.name = cg.name)
    (keys : gr.members.keys = cg.members.keys)
    (members : List.Forall₂ (fun member g => member.graph.Alike g ∧ g.space = gr.space)
      cg.members.values gr.graphs)
    (next : c.peek gr.space = (cg.toRecord recorded).resumed) :
    Restored recorded c (some (.group cg)) none (some gr)

theorem runs_mapM_some {ε α β σ : Type} {read : α → ExceptT ε (StateM σ) β} {a : α}
    {r : Option β} {s s' : σ} :
    Runs ((some a).mapM read) s (.ok r) s' ↔ ∃ b, r = some b ∧ Runs (read a) s (.ok b) s' := by
  change Runs (some <$> read a) s _ s' ↔ _
  rw [map_eq_pure_bind, runs_bind_ok]
  constructor
  · rintro ⟨b, s₁, hb, hr⟩
    obtain ⟨heq, rfl⟩ := runs_pure.mp hr
    exact ⟨b, Except.ok.inj heq, hb⟩
  · rintro ⟨b, rfl, hb⟩
    exact ⟨b, s', hb, runs_pure.mpr ⟨rfl, rfl⟩⟩

theorem Material.graph_sections : (m.sections f p).graph =
    (whereGranted f.nodes m.compiled).bind (·.graphRecord? m.counters) := by
  cases hf : f.nodes <;> simp [sections, whereGranted, graphRecord?, hf]

theorem Material.group_sections : (m.sections f p).group =
    (whereGranted f.nodes m.compiled).bind (·.groupRecord? m.counters) := by
  cases hf : f.nodes <;> simp [sections, whereGranted, groupRecord?, hf]

theorem Material.runs_restore (hco : ∀ co ∈ m.compiled, co.Recordable)
    (hlast : ∀ co ∈ whereGranted f.nodes m.compiled, ∀ cg ∈ co.graphs, cg.graph.BelowLast)
    (p : Parameters) (c : IdCounters) :
    ∃ g gr c₁ c', Runs ((m.sections f p).graph.mapM (·.restore)) c (.ok g) c₁ ∧
      Runs ((m.sections f p).group.mapM (·.restore)) c₁ (.ok gr) c' ∧
      Compilation.Restored m.counters c' (whereGranted f.nodes m.compiled) g gr := by
  rw [graph_sections, group_sections]
  -- One of the two records is missing, so no counter moves after the graph is restored.
  cases hsource : whereGranted f.nodes m.compiled with
  | none =>
    exact ⟨none, none, c, c, runs_pure.mpr ⟨rfl, rfl⟩, runs_pure.mpr ⟨rfl, rfl⟩, .nothing⟩
  | some co =>
    have hrecordable := hco co (mem_whereGranted.mp hsource).2
    have hbelow := hlast co hsource
    cases co with
    | graph cg =>
      have hg := hrecordable.graphs cg List.mem_cons_self
      have hrun := hg.runs_restore (c := c) (hbelow cg List.mem_cons_self) m.counters
      exact ⟨_, none, _, _, runs_mapM_some.mpr ⟨_, rfl, hrun⟩,
        runs_pure.mpr ⟨rfl, rfl⟩, .graph (hg.alike _) (IdCounters.peek_append ..)⟩
    | group cg =>
      obtain ⟨c', hrun, hnext⟩ := CompiledGroup.runs_restore (c := c) m.counters
        (fun member hm => ⟨hrecordable.graphs member hm, hbelow member hm⟩)
        hrecordable.names hrecordable.separate
      refine ⟨none, _, c, c', runs_pure.mpr ⟨rfl, rfl⟩, runs_mapM_some.mpr ⟨_, rfl, hrun⟩,
        .group rfl ?_ ?_ hnext⟩
      · rw [hrecordable.listed cg rfl]
        simp [OrderedMap.keys, Function.comp_def]
      · simp only [Group.graphs, OrderedMap.values, List.map_map, Function.comp_def]
        rw [List.forall₂_map_left_iff, List.forall₂_map_right_iff, List.forall₂_same]
        exact fun member hmember =>
          ⟨(hrecordable.graphs member.2 (List.mem_map_of_mem hmember)).alike _, rfl⟩

theorem Material.belowLast_of_restore {g : Option Graph} {gr : Option Group}
    {c₁ c' : IdCounters} (hg : Runs ((m.sections f p).graph.mapM (·.restore)) c (.ok g) c₁)
    (hgr : Runs ((m.sections f p).group.mapM (·.restore)) c₁ (.ok gr) c') :
    ∀ co ∈ whereGranted f.nodes m.compiled, ∀ cg ∈ co.graphs, cg.graph.BelowLast := by
  rw [graph_sections] at hg
  rw [group_sections] at hgr
  intro co hco cg hcg
  rw [Option.mem_def.mp hco] at hg hgr
  cases co with
  | graph compiled =>
    cases List.mem_singleton.mp hcg
    obtain ⟨_, -, hrun⟩ := runs_mapM_some.mp hg
    exact Graph.belowLast_toRecord.mp (GraphRecord.belowLast_of_restore hrun)
  | group compiled =>
    obtain ⟨_, -, hrun⟩ := runs_mapM_some.mp hgr
    exact Graph.belowLast_toRecord.mp
      (GroupRecord.belowLast_of_restore hrun _ (List.mem_map_of_mem hcg))

namespace Compilation

variable {recorded : IdCounters} {source : Option Compilation} {g : Option Graph}
  {gr : Option Group}

theorem Restored.isSome_eq (h : Restored recorded c source g gr) :
    (g.isSome || gr.isSome) = source.isSome := by
  cases h <;> rfl

theorem Restored.of_graph {cg : CompiledGraph} (h : Restored recorded c (some (.graph cg)) g gr) :
    gr = none ∧ ∃ k, g = some k ∧ cg.graph.Alike k ∧
      c.peek k.space = (cg.graph.toRecord recorded).resumed := by
  cases h with
  | graph alike next => exact ⟨rfl, _, rfl, alike, next⟩

theorem Restored.next_eq {space : IdSpace} (h : Restored recorded c source g gr)
    (hpast : ∀ co ∈ source, ∀ cg ∈ co.graphs, cg.graph.space = space ∧
      ∀ id ∈ cg.graph.ids, id < recorded.peek space) :
    (∀ k ∈ g, c.peek k.space = recorded.peek space) ∧
      ∀ group ∈ gr, ∀ k ∈ group.graphs, c.peek k.space = recorded.peek space := by
  cases h with
  | nothing => simp
  | @graph cg g alike next =>
    obtain ⟨hspace, hids⟩ := hpast _ rfl cg List.mem_cons_self
    refine ⟨?_, by simp⟩
    rintro _ ⟨⟩
    subst hspace
    rw [next, Graph.resumed_eq hids]
  | @group cg gr name keys members next =>
    refine ⟨by simp, ?_⟩
    rintro _ ⟨⟩ k hk
    obtain ⟨i, hi, rfl⟩ := List.getElem_of_mem hk
    have hmember : i < cg.members.values.length := members.length_eq ▸ hi
    have hspace : gr.graphs[i].space = gr.space := (members.get hmember hi).2
    rw [hspace, next, CompiledGroup.resumed_eq
      (List.ne_nil_of_mem (List.getElem_mem hmember)) (hpast _ rfl)]

end Compilation

namespace KeyBundle

variable {b : KeyBundle kind} {context : Context}

theorem runs_ofExec_ok {α : Type} {x : Except ExecError α} {a : α} {c' : IdCounters} :
    Runs (ofExec x) c (.ok a) c' ↔ x = .ok a ∧ c' = c := by
  cases x with
  | ok b =>
    rw [ofExec, runs_pure, Except.ok.injEq, Except.ok.injEq]
    exact and_congr_left fun _ => eq_comm
  | error e => simp [ofExec]

theorem runs_ofGraph_ok {α : Type} {x : Allocating GraphError α} {a : α} {c' : IdCounters} :
    Runs (KeyBundle.ofGraph x) c (.ok a) c' ↔ Runs x c (.ok a) c' := by
  unfold Runs
  change KeyBundle.ofGraph x c = _ ↔ x.run.run c = _
  unfold KeyBundle.ofGraph
  split
  · next hx =>
    rw [hx]
    constructor <;> rintro ⟨⟩ <;> rfl
  · next hx =>
    rw [hx]
    exact ⟨nofun, nofun⟩

theorem ofSections_ok {s : BundleSections} {c' : IdCounters} :
    Runs (ofSections kind s context) c (.ok b) c' ↔
      ∃ pub sec g gr c₁, s.publicHalf kind context = .ok pub ∧
        s.secretHalf kind context pub = .ok sec ∧
        Runs (s.graph.mapM (·.restore)) c (.ok g) c₁ ∧
        Runs (s.group.mapM (·.restore)) c₁ (.ok gr) c' ∧
        b = ⟨s.grants, context, pub, sec, g, gr, s.signature, s.signatures, s.requirements⟩ := by
  unfold ofSections
  constructor
  · intro h
    obtain ⟨pub, _, hpub, hrest⟩ := runs_bind_ok.mp h
    obtain ⟨sec, _, hsec, hrest'⟩ := runs_bind_ok.mp hrest
    obtain ⟨g, c₁, hg, hrest''⟩ := runs_bind_ok.mp hrest'
    obtain ⟨gr, _, hgr, hlast⟩ := runs_bind_ok.mp hrest''
    obtain ⟨hhalf, rfl⟩ := runs_ofExec_ok.mp hpub
    obtain ⟨hsecret, rfl⟩ := runs_ofExec_ok.mp hsec
    obtain ⟨hb, rfl⟩ := runs_pure.mp hlast
    exact ⟨pub, sec, g, gr, c₁, hhalf, hsecret, runs_ofGraph_ok.mp hg, runs_ofGraph_ok.mp hgr,
      Except.ok.inj hb⟩
  · rintro ⟨pub, sec, g, gr, c₁, hpub, hsec, hg, hgr, rfl⟩
    refine runs_bind_ok.mpr ⟨pub, c, runs_ofExec_ok.mpr ⟨hpub, rfl⟩, ?_⟩
    refine runs_bind_ok.mpr ⟨sec, c, runs_ofExec_ok.mpr ⟨hsec, rfl⟩, ?_⟩
    refine runs_bind_ok.mpr ⟨g, c₁, runs_ofGraph_ok.mpr hg, ?_⟩
    exact runs_bind_ok.mpr ⟨gr, c', runs_ofGraph_ok.mpr hgr, runs_pure.mpr ⟨rfl, rfl⟩⟩

/-- A bundle that holds of some material just what is granted, as it was supplied. -/
structure Delivers (b : KeyBundle kind) (m : Material kind) (f : Grants) (c : IdCounters) :
    Prop where
  grants : b.grants = f
  params : m.parameters? = some b.context.params
  publicKey : b.publicHalf.map (·.key) = whereGranted f.carriesPublicKey m.publicKey?
  evaluationKeys : b.publicHalf.bind (·.evaluationKeys) =
    whereGranted f.execution m.evaluationKeys?
  secretKey : b.secretHalf.map (·.key) = whereGranted f.decryption m.secretKey?
  publicContext : ∀ pub ∈ b.publicHalf, pub.context = b.context
  secretContext : ∀ sec ∈ b.secretHalf, sec.context = b.context
  requirements : b.requirements = whereGranted f.keyGeneration m.requirements?
  signature : b.signature = whereGranted f.signature m.signature?
  signatures : b.signatures = whereGranted f.signature m.signatures?
  compiled : Compilation.Restored m.counters c (whereGranted f.nodes m.compiled) b.graph b.group

/-- A bundle in which a section is there if and only if it is granted. -/
structure Carries (b : KeyBundle kind) (f : Grants) : Prop where
  publicKey : b.publicHalf.isSome = f.carriesPublicKey
  evaluationKeys : (b.publicHalf.bind (·.evaluationKeys)).isSome = f.execution
  secretKey : b.secretHalf.isSome = f.decryption
  nodes : (b.graph.isSome || b.group.isSome) = f.nodes
  requirements : b.requirements.isSome = f.keyGeneration
  signature : (b.signature.isSome || b.signatures.isSome) = f.signature

theorem Delivers.carries (h : b.Delivers m f c) (hsupplies : m.Supplies f) : b.Carries f := by
  have hcomplete := hsupplies.complete (p := b.context.params)
  constructor
  · rw [← Option.isSome_map, h.publicKey]
    exact hcomplete.publicKey
  · rw [h.evaluationKeys]
    exact hcomplete.evaluationKeys
  · rw [← Option.isSome_map, h.secretKey]
    exact hcomplete.secretKey
  · rw [h.compiled.isSome_eq, isSome_whereGranted hsupplies.nodes]
  · rw [h.requirements]
    exact hcomplete.requirements
  · rw [h.signature, h.signatures]
    exact hcomplete.signature

/-- A bundle that refuses to give a section, saying which, if and only if it is absent. -/
structure Refuses (b : KeyBundle kind) : Prop where
  publicKey : b.requirePublic = .error (.exec (.absent .publicKey)) ↔ b.publicHalf = none
  secretKey : b.requireSecret = .error (.exec (.absent .secretKey)) ↔ b.secretHalf = none
  graph : b.requireGraph = .error (.exec (.absent .graph)) ↔ b.graph = none
  group : b.requireGroup = .error (.exec (.absent .group)) ↔ b.group = none
  signature : b.requireSignature = .error (.exec (.absent .signature)) ↔ b.signature = none
  memberSignature (name : String) : b.requireMemberSignature name =
    .error (.exec (.absent (.memberSignature name))) ↔ b.signatures.bind (·.find? name) = none
  requirements : b.requireRequirements = .error (.exec (.absent .requirements)) ↔
    b.requirements = none

theorem refuses (b : KeyBundle kind) : b.Refuses := by
  have hpresent {α : Type} {what : Absence} {a : Option α} :
      presentOr what a = .error (.exec (.absent what)) ↔ a = none := by
    cases a <;> simp [presentOr]
  exact ⟨hpresent, hpresent, hpresent, hpresent, hpresent, fun _ => hpresent, hpresent⟩

theorem runs_delivers (hco : ∀ co ∈ m.compiled, co.Recordable)
    (hlast : ∀ co ∈ whereGranted f.nodes m.compiled, ∀ cg ∈ co.graphs, cg.graph.BelowLast)
    (hchecked : m.checked = .ok p) (hsupplies : m.Supplies f) (hparams : context.params = p)
    (c : IdCounters) :
    ∃ b c', Runs (ofSections kind (m.sections f p) context) c (.ok b) c' ∧
      b.context = context ∧ b.Delivers m f c' := by
  have hp := Material.parameters?_of_checked hchecked
  have hs : context.scheme = kind := by
    rw [Context.scheme, hparams, Material.scheme_of_parameters? hp]
  obtain ⟨pub, hpub, hkey, hkeys, hpubcontext⟩ := hsupplies.publicHalf_sections (p := p) hs
  obtain ⟨sec, hsec, hseckey, hseccontext⟩ := hsupplies.secretHalf_sections hchecked hs hkey
  obtain ⟨g, gr, c₁, c', hg, hgr, hrestored⟩ := Material.runs_restore hco hlast p c
  refine ⟨_, c', ofSections_ok.mpr ⟨_, _, _, _, c₁, hpub, hsec, hg, hgr, rfl⟩, rfl, ?_⟩
  exact ⟨rfl, hparams ▸ hp, hkey, hkeys, hseckey, hpubcontext, hseccontext, rfl, rfl, rfl,
    hrestored⟩

theorem belowLast_of_sections {c' : IdCounters}
    (h : Runs (ofSections kind (m.sections f p) context) c (.ok b) c') :
    ∀ co ∈ whereGranted f.nodes m.compiled, ∀ cg ∈ co.graphs, cg.graph.BelowLast := by
  obtain ⟨_, _, _, _, _, -, -, hg, hgr, -⟩ := ofSections_ok.mp h
  exact Material.belowLast_of_restore hg hgr

/-- A bundle that was written is read as its sections, with the context that the cache has. -/
theorem read_wrap (hp : m.parameters? = some p) (hsupplies : m.Supplies f)
    (hfits : (m.sections f p).Fits) {cache cache' : ContextCache} {inUse : Context → Bool}
    {v v' : Vault} (hcontext : (cache.getOrCreate p inUse).run v = ((cache', .ok context), v')) :
    (KeyBundle.read kind (Envelope.wrap .keyBundle kind (m.sections f p)).toBytes cache inUse).run
      v = ((cache', ofSections kind (m.sections f p) context), v') := by
  unfold KeyBundle.read
  rw [hsupplies.read_wrap hp hfits]
  change StateT.run (cache.getOrCreate p inUse >>= _) v = _
  rw [StateT.run_bind, hcontext]
  rfl

end KeyBundle

/-- A bundle is written if and only if all that is there belongs together and nothing granted is
lacking. It is refused for lack of material if and only if nothing tells the parameters, or all that
is there belongs together and something granted is lacking. A bundle that was written is read with
any cache that has a context for its parameters, if and only if no graph it was granted has the last
id of all. It delivers what it was granted; graphs whose shared counter is past their ids hand out
the same next id as before. -/
theorem bundle_round_trip (hm : m.Fits)
    (hcompiled : ∀ co ∈ m.compiled, co.Accepted ∧ co.Disjoint) :
    ((∃ e, m.write f = .ok e) ↔
      (∃ p, m.checked = .ok p) ∧ ∀ d ∈ m.demands f, d.2 = false) ∧
    ((∃ what, m.write f = .error (.notSupplied what)) ↔
      (m.publicHalf = none ∧ m.secretHalf = none) ∨
        (∃ p, m.checked = .ok p) ∧ ∃ d ∈ m.demands f, d.2 = true) ∧
    ∀ e, m.write f = .ok e → ∃ p, m.parameters? = some p ∧
      ∀ cache cache' inUse v v' context, cache.Reachable →
        (cache.getOrCreate p inUse).run v = ((cache', .ok context), v') →
        ∃ load, (KeyBundle.read kind e.toBytes cache inUse).run v = ((cache', load), v') ∧
          ∀ c, ((∃ b c', Runs load c (.ok b) c') ↔
              ∀ co ∈ whereGranted f.nodes m.compiled, ∀ cg ∈ co.graphs, cg.graph.BelowLast) ∧
            ∀ b c', Runs load c (.ok b) c' → b.context = context ∧ b.Delivers m f c' ∧
              b.Carries f ∧ b.Refuses ∧
              ∀ space, (∀ co ∈ m.compiled, ∀ cg ∈ co.graphs, cg.graph.space = space ∧
                  ∀ id ∈ cg.graph.ids, id < m.counters.peek space) →
                (∀ g ∈ b.graph, c'.peek g.space = m.counters.peek space) ∧
                ∀ gr ∈ b.group, ∀ g ∈ gr.graphs, c'.peek g.space = m.counters.peek space := by
  refine ⟨Material.exists_write_ok, Material.write_eq_notSupplied, fun e hw => ?_⟩
  have hco : ∀ co ∈ m.compiled, co.Recordable := fun co h =>
    (hcompiled co h).1.recordable (hcompiled co h).2
  obtain ⟨p, hchecked, hdemands, rfl⟩ := Material.write_ok hw
  have hp := Material.parameters?_of_checked hchecked
  have hsupplies := Material.supplies_of_demands hdemands
  refine ⟨p, hp, fun cache cache' inUse v v' context hcache hcontext => ?_⟩
  refine ⟨_, KeyBundle.read_wrap hp hsupplies (hm.sections hco hp) hcontext, fun c => ?_⟩
  have hparams := ((hcache.coherent.getOrCreate hcontext).2 context rfl).1
  have hmade (hlast : ∀ co ∈ whereGranted f.nodes m.compiled, ∀ cg ∈ co.graphs,
      cg.graph.BelowLast) := KeyBundle.runs_delivers hco hlast hchecked hsupplies hparams c
  refine ⟨⟨fun ⟨b, c', h⟩ => KeyBundle.belowLast_of_sections h, fun hlast => ?_⟩,
    fun b c' hload => ?_⟩
  · obtain ⟨b, c', hrun, -⟩ := hmade hlast
    exact ⟨b, c', hrun⟩
  · obtain ⟨b', d, hrun, hb, hdelivers⟩ := hmade (KeyBundle.belowLast_of_sections hload)
    obtain ⟨heq, rfl⟩ := hload.unique hrun
    cases heq
    refine ⟨hb, hdelivers, hdelivers.carries hsupplies, b.refuses, fun space hpast => ?_⟩
    exact hdelivers.compiled.next_eq fun co hsource => hpast co (mem_whereGranted.mp hsource).2

theorem fits_gateDifference : Compilation.Fits (.graph gateDifference) where
  graphs cg hcg := by
    cases List.mem_singleton.mp hcg
    refine ⟨⟨by decide, ?_⟩, by decide, ?_, by decide, by decide⟩
    · simp [gateDifference, Operation.Fits, NodeId.bound, UInt64.size, UInt32.size]
    · simp only [gateDifference, List.forall_mem_cons]
      exact ⟨⟨by decide, by decide⟩, ⟨by decide, by decide⟩, by simp⟩
  requirements := ⟨.nil, by simp [Compilation.requirements, gateDifference], by decide, by decide⟩

theorem fits_ownerMaterial : ownerMaterial.Fits where
  parameters := by
    rintro _ ⟨⟩
    exact ⟨by simp [byteContext, Parameters.bitwise], by decide⟩
  publicKey := by
    rintro _ ⟨⟩
    exact SecretKey.length_material _
  evaluationKeys := by
    rintro _ ⟨⟩
    exact ⟨.nil, by simp⟩
  secretKey := by
    rintro _ ⟨⟩
    rfl
  compiled := by
    rintro _ ⟨⟩
    exact fits_gateDifference
  counters := by
    rintro ⟨_ | _⟩
    · decide
    · exact Nat.zero_lt_succ _

theorem getOrCreate_create :
    ((ContextCache.create 8).getOrCreate (.bitwise 8) fun _ => false).run ⟨[]⟩ =
      ((⟨8, [(.bitwise 8, byteContext)]⟩, .ok byteContext), ⟨[NativeHeap.empty]⟩) := rfl

theorem belowLast_ownerMaterial :
    ∀ co ∈ ownerMaterial.compiled, ∀ cg ∈ co.graphs, cg.graph.BelowLast := by
  rintro _ ⟨⟩ cg hcg
  cases List.mem_singleton.mp hcg
  unfold Graph.BelowLast
  decide

/-- The owner of the difference gets back all that was at hand; the restored graph goes on with the
id that the compiled one would have handed out. -/
theorem bundle_round_trip_ownerMaterial :
    ∃ e load cache' v' b c' g, ownerMaterial.write .keyOwner = .ok e ∧
      (KeyBundle.read .bitwise e.toBytes (.create 8) fun _ => false).run ⟨[]⟩ =
        ((cache', load), v') ∧
      Runs load .empty (.ok b) c' ∧ b.Delivers ownerMaterial .keyOwner c' ∧
      b.graph = some g ∧ c'.peek g.space = 6 := by
  have hcompiled : ∀ co ∈ ownerMaterial.compiled, co.Accepted ∧ co.Disjoint := by
    rintro _ ⟨⟩
    exact ⟨accepted_gateDifference, by simp [Compilation.graphs, gateDifference,
      Graph.mixedDifference, Graph.blank], List.pairwise_singleton _ _⟩
  obtain ⟨-, -, hround⟩ := bundle_round_trip (f := .keyOwner) fits_ownerMaterial hcompiled
  obtain ⟨p, hp, hread⟩ := hround _ (write_ownerMaterial .keyOwner)
  cases hp
  obtain ⟨load, hload, hrun⟩ := hread _ _ _ _ _ _ (.create 8) getOrCreate_create
  obtain ⟨hloads, hloaded⟩ := hrun .empty
  obtain ⟨b, c', hb⟩ := hloads.mpr belowLast_ownerMaterial
  obtain ⟨-, hdelivers, -, -, hnext⟩ := hloaded b c' hb
  obtain ⟨-, g, hg, -, -⟩ := hdelivers.compiled.of_graph
  refine ⟨_, load, _, _, b, c', g, write_ownerMaterial .keyOwner, hload, hb, hdelivers, hg, ?_⟩
  refine (hnext ⟨0⟩ ?_).1 g hg
  rintro _ ⟨⟩ cg hcg
  cases List.mem_singleton.mp hcg
  exact ⟨rfl, by decide⟩

def lateId : NodeId := NodeId.bound - 2

/-- The output `z` of the input `y` took its id from the input `x` when the counter had returned to
zero, so that `x` is hidden. -/
def reusedOutput : CompiledGraph where
  scheme := .bitwise
  graph :=
    { Graph.blank "g" 1 ⟨0⟩ with
      nodes := [⟨0, .output "z"⟩, ⟨lateId, .input "y" .cipher⟩]
      hidden := [0]
      edges := [⟨⟨lateId, 0⟩, ⟨0, 1⟩, 0⟩]
      inputs := ⟨[("x", 0), ("y", lateId)]⟩
      outputs := ⟨[("z", 0)]⟩ }
  types := ⟨[(lateId, .cipher), (0, .cipher)]⟩
  signature := ⟨1, ⟨[("x", ⟨.cipher, 0, 0⟩), ("y", ⟨.cipher, 0, 0⟩)]⟩, ⟨[("z", .cipher)]⟩⟩
  requirements := ⟨[], 0, false, 1⟩
  report := ⟨0, 0, 0⟩

theorem accepted_reusedOutput : Compilation.Accepted (.graph reusedOutput) := by
  -- Between the calls, others that draw from the same space have moved its counter.
  have hcreate : Graph.create "g" 1 ⟨0⟩ = .ok (.blank "g" 1 ⟨0⟩) := rfl
  have h₀ : (Graph.blank "g" 1 ⟨0⟩).Assembled := .create hcreate
  have h₁ := h₀.extend ⟨[0]⟩ (.input "x" .cipher) [] rfl (by simp) rfl
  have h₂ := h₁.extend ⟨[lateId]⟩ (.input "y" .cipher) [] rfl (by simp) rfl
  have h₃ := h₂.extend ⟨[0]⟩ (.output "z") [lateId] rfl (by decide) rfl
  have hcompile : Runs (reusedOutput.graph.compile ⟨.bitwise, 0⟩) ⟨[1]⟩ (.ok reusedOutput)
      ⟨[1]⟩ := by
    unfold Runs
    with_unfolding_all rfl
  exact .graph h₃.reachable hcompile

/-- The input `y` has the last id of all, and the output `z` of it the first. -/
def lastInput : CompiledGraph where
  scheme := .bitwise
  graph :=
    { Graph.blank "g" 1 ⟨0⟩ with
      nodes := [⟨0, .output "z"⟩, ⟨NodeId.bound - 1, .input "y" .cipher⟩]
      edges := [⟨⟨NodeId.bound - 1, 0⟩, ⟨0, 0⟩, 0⟩]
      inputs := ⟨[("y", NodeId.bound - 1)]⟩
      outputs := ⟨[("z", 0)]⟩ }
  types := ⟨[(NodeId.bound - 1, .cipher), (0, .cipher)]⟩
  signature := ⟨1, ⟨[("y", ⟨.cipher, 0, 0⟩)]⟩, ⟨[("z", .cipher)]⟩⟩
  requirements := ⟨[], 0, false, 1⟩
  report := ⟨0, 0, 0⟩

theorem accepted_lastInput : Compilation.Accepted (.graph lastInput) := by
  have hcreate : Graph.create "g" 1 ⟨0⟩ = .ok (.blank "g" 1 ⟨0⟩) := rfl
  have h₀ : (Graph.blank "g" 1 ⟨0⟩).Assembled := .create hcreate
  have h₁ := h₀.extend ⟨[NodeId.bound - 1]⟩ (.input "y" .cipher) [] rfl (by simp) rfl
  have h₂ := h₁.extend ⟨[0]⟩ (.output "z") [NodeId.bound - 1] rfl (by decide) rfl
  have hcompile : Runs (lastInput.graph.compile ⟨.bitwise, 0⟩) ⟨[1]⟩ (.ok lastInput) ⟨[1]⟩ := by
    unfold Runs
    with_unfolding_all rfl
  exact .graph h₂.reachable hcompile

def decryptingMaterial (cg : CompiledGraph) : Material .bitwise where
  publicHalf := none
  secretHalf := some ownerSecret
  compiled := some (.graph cg)
  counters := ⟨[1]⟩

def nodesOnly : Grants := { Grants.none with nodes := true }

theorem fits_decryptingMaterial {cg : CompiledGraph} (h : (cg.graph.toRecord ⟨[1]⟩).Fits) :
    ((decryptingMaterial cg).sections nodesOnly (.bitwise 8)).Fits where
  params := ⟨by simp [Material.sections, Parameters.bitwise], (by decide : 8 < UInt8.size)⟩
  graph := by
    rintro _ ⟨⟩
    exact h
  group := by rintro _ ⟨⟩
  requirements := by rintro _ ⟨⟩
  signature := by rintro _ ⟨⟩
  signatures := by rintro _ ⟨⟩
  publicKey := by rintro _ ⟨⟩
  evaluationKeys := by rintro _ ⟨⟩
  secretKey := by rintro _ ⟨⟩

theorem fits_passedOn {id : NodeId} (hid : id < NodeId.bound) :
    (GraphRecord.mk "g" 1 1 [⟨0, .output "z"⟩, ⟨id, .input "y" .cipher⟩] [(0, 0, id)]).Fits where
  width := show 1 < UInt32.size by decide
  next := show 1 < NodeId.bound by decide
  nodes := by
    have hfirst : 0 < NodeId.bound := Nat.zero_lt_of_lt hid
    simp [Operation.Fits, hfirst, hid]
  operands t ht := by
    cases List.mem_singleton.mp ht
    exact ⟨Nat.zero_lt_of_lt hid, show 0 < UInt16.size by decide, hid⟩

theorem fits_reusedOutput : (reusedOutput.graph.toRecord ⟨[1]⟩).Fits := by
  have hrecord : reusedOutput.graph.toRecord ⟨[1]⟩ =
      ⟨"g", 1, 1, [⟨0, .output "z"⟩, ⟨lateId, .input "y" .cipher⟩], [(0, 0, lateId)]⟩ := by
    with_unfolding_all rfl
  exact hrecord ▸ fits_passedOn (by decide)

theorem fits_lastInput : (lastInput.graph.toRecord ⟨[1]⟩).Fits := by
  have hrecord : lastInput.graph.toRecord ⟨[1]⟩ = ⟨"g", 1, 1,
      [⟨0, .output "z"⟩, ⟨NodeId.bound - 1, .input "y" .cipher⟩], [(0, 0, NodeId.bound - 1)]⟩ := by
    with_unfolding_all rfl
  exact hrecord ▸ fits_passedOn (by decide)

theorem read_decryptingMaterial {cg : CompiledGraph} (h : (cg.graph.toRecord ⟨[1]⟩).Fits) :
    (KeyBundle.read .bitwise (Envelope.wrap .keyBundle .bitwise
        ((decryptingMaterial cg).sections nodesOnly (.bitwise 8))).toBytes (.create 8)
      fun _ => false).run ⟨[]⟩ =
      ((⟨8, [(.bitwise 8, byteContext)]⟩, KeyBundle.ofSections .bitwise
        ((decryptingMaterial cg).sections nodesOnly (.bitwise 8)) byteContext),
        ⟨[NativeHeap.empty]⟩) :=
  KeyBundle.read_wrap (p := .bitwise 8) rfl
    (Material.supplies_of_demands
      (by simp [Material.demands, nodesOnly, Grants.none, decryptingMaterial]))
    (fits_decryptingMaterial h) getOrCreate_create

/-- What the record of the graph is restored to: `x` is lost. -/
def restoredOutput : Graph :=
  { reusedOutput.graph with
    hidden := []
    edges := [⟨⟨lateId, 0⟩, ⟨0, 0⟩, 0⟩]
    inputs := ⟨[("y", lateId)]⟩ }

theorem restore_reusedOutput :
    Runs (((decryptingMaterial reusedOutput).sections nodesOnly (.bitwise 8)).graph.mapM
      (·.restore)) .empty (.ok (some restoredOutput)) ⟨[lateId + 1]⟩ := by
  unfold Runs
  cbv

/-- Once the counter has come round, a bundle does not keep an input whose id was handed out again,
nor the next id, and one of a graph that has the last id of all is not read. -/
theorem bundle_not_kept_after_turnaround :
    ((Compilation.graph reusedOutput).Accepted ∧
      ∃ e load cache' v' b c' g, (decryptingMaterial reusedOutput).write nodesOnly = .ok e ∧
        (KeyBundle.read .bitwise e.toBytes (.create 8) fun _ => false).run ⟨[]⟩ =
          ((cache', load), v') ∧
        Runs load .empty (.ok b) c' ∧ b.graph = some g ∧
        "x" ∈ reusedOutput.graph.inputs.keys ∧ "x" ∉ g.inputs.keys ∧
        c'.peek g.space ≠
          (decryptingMaterial reusedOutput).counters.peek reusedOutput.graph.space) ∧
    ((Compilation.graph lastInput).Accepted ∧
      ∃ e load cache' v' c', (decryptingMaterial lastInput).write nodesOnly = .ok e ∧
        (KeyBundle.read .bitwise e.toBytes (.create 8) fun _ => false).run ⟨[]⟩ =
          ((cache', load), v') ∧
        Runs load .empty (.error (.graph .idOverflow)) c') := by
  refine ⟨⟨accepted_reusedOutput, _, _, _, _, _, _, restoredOutput, rfl,
    read_decryptingMaterial fits_reusedOutput,
    KeyBundle.ofSections_ok.mpr ⟨_, _, _, _, _, rfl, rfl, restore_reusedOutput, rfl, rfl⟩, rfl,
    by decide, by decide, by decide⟩, accepted_lastInput, _, _, _, _, ⟨[1]⟩, rfl,
    read_decryptingMaterial fits_lastInput, ?_⟩
  unfold Runs
  cbv

end CipherGraph

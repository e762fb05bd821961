import CipherGraph.Proofs.Delivery
import CipherGraph.Proofs.Envelopes
import CipherGraph.Proofs.GroupIds

/-! # Accepted bundles hold together

Whatever bytes a bundle is read from, forged ones included, it is one that could have been written:
its sections are those that its grants name, its keys belong together, and its graphs are sound,
with ids and names apart and counters past all ids.
-/

namespace CipherGraph

open IdCounters (Later)

variable {kind : SchemeKind} {c c' : IdCounters}

theorem IdCounters.later_append (c : IdCounters) (start : NodeId) :
    Later c ⟨c.next ++ [start]⟩ := by
  refine ⟨by simp, fun s => ?_⟩
  by_cases h : s.key < c.next.length
  · exact Nat.le_of_eq (peek_append_of_lt h start).symm
  · simp [peek, List.getElem?_eq_none (Nat.not_lt.mp h)]

namespace Graph

variable {g k : Graph}

/-- Nodes have ids of their own, inputs and outputs have names of their own and are those in the
tables, and every node has as many operands as it takes, which are all there. The next id of the
graph is past every id. -/
structure Coherent (g : Graph) (c : IdCounters) : Prop where
  ids : (g.nodes.map (·.id)).Nodup
  inputs : g.inputs.keys.Nodup
  outputs : g.outputs.keys.Nodup
  inputNodes : (inputsOf g.nodes).Perm g.inputs.entries
  outputNodes : (outputsOf g.nodes).Perm g.outputs.entries
  operands : ∀ n ∈ g.nodes, ∀ o ∈ g.operands n.id, o ∈ g.ids
  arity : ∀ n ∈ g.nodes, (g.operands n.id).length = n.op.arity
  next : ∀ id ∈ g.ids, id < c.peek g.space

theorem Recordable.coherent (h : g.Recordable) (hunder : g.Under c) : g.Coherent c where
  ids := h.sound.nodup
  inputs := h.sound.inputs
  outputs := h.sound.outputs
  inputNodes := h.inputs_perm
  outputNodes := h.outputs_perm
  operands _ _ _ ho := h.sound.mem_ids_of_mem_operands h.visible ho
  arity := h.sound.arity
  next := hunder.ids

theorem Coherent.later (h : g.Coherent c) (hc : Later c c') : g.Coherent c' :=
  { h with next := fun id hid => Nat.lt_of_lt_of_le (h.next id hid) (hc.peek _) }

theorem Coherent.rebind (h : g.Coherent c) {space : IdSpace}
    (hspace : space.key < c.next.length) :
    Coherent { g with space } (c.advance space (c.peek g.space)) :=
  { h with
    next := fun id hid => Nat.lt_of_lt_of_le (h.next id hid) (IdCounters.le_peek_advance hspace) }

theorem coherent_of_restore {r : GraphRecord} (h : Runs r.restore c (.ok g) c') :
    g.Coherent c' ∧ Later c c' ∧ g.space = ⟨c.next.length⟩ := by
  unfold GraphRecord.restore at h
  rw [runs_bind_of_ok runs_openSpace] at h
  unfold GraphRecord.restoreIn Allocating.advance at h
  rw [runs_modify_bind] at h
  have hadvanced := IdCounters.later_advance ⟨c.next ++ [r.next]⟩ ⟨c.next.length⟩ r.next
  have hlength := hadvanced.length
  obtain ⟨hunder, hlater, hspace⟩ :=
    under_ofParts (Nat.lt_of_lt_of_le (by simp) hlength) h
  have hrecordable := (Reachable.ofParts h).recordable (visible_ofParts h)
  exact ⟨hrecordable.coherent hunder, ((c.later_append r.next).trans hadvanced).trans hlater,
    hspace⟩

end Graph

namespace Group

variable {gr gr' : Group} {g : Graph}

/-- The members are coherent graphs on one space, with no id and no input name in common. -/
structure Coherent (gr : Group) (c : IdCounters) : Prop where
  members : ∀ g ∈ gr.graphs, g.space = gr.space ∧ g.Coherent c
  separate : gr.graphs.Pairwise Graph.Separate

theorem Coherent.later (h : gr.Coherent c) (hc : Later c c') : gr.Coherent c' where
  members g hg := ⟨(h.members g hg).1, (h.members g hg).2.later hc⟩
  separate := h.separate

theorem separate_of_shared (hinput : gr.sharedInput? g = none) (hid : gr.sharedId? g = none) :
    ∀ k ∈ gr.graphs, k.Separate g := by
  refine fun k hk => ⟨fun id hmem hmem' => ?_, fun name hmem hmem' => ?_⟩
  · refine List.find?_eq_none.mp hid id hmem ?_
    exact List.any_eq_true.mpr ⟨k, hk, Graph.contains_iff.mpr hmem'⟩
  · refine List.find?_eq_none.mp hinput name hmem ?_
    exact List.any_eq_true.mpr ⟨k, hk, OrderedMap.contains_iff.mpr hmem'⟩

/-- A graph from another space joins only if it shares nothing with the members. -/
theorem Coherent.addGraph (h : gr.Coherent c) (hspace : gr.space.key < c.next.length)
    (hg : g.Coherent c) (hother : g.space ≠ gr.space)
    (hadd : Runs (gr.addGraph g) c (.ok gr') c') :
    gr'.Coherent c' ∧ Later c c' ∧ gr'.space = gr.space := by
  obtain ⟨hname, hinput, ⟨heq, -⟩ | ⟨-, hid, rfl, rfl⟩⟩ := addGraph_ok hadd
  · exact absurd heq hother
  have hlater := IdCounters.later_advance c gr.space (c.peek g.space)
  have hgraphs :
      graphs { gr with members := gr.members.insert g.name { g with space := gr.space } } =
        gr.graphs ++ [{ g with space := gr.space }] := by
    rw [graphs, OrderedMap.values,
      OrderedMap.entries_insert_of_not_mem (OrderedMap.contains_eq_false.mp hname), List.map_append]
    rfl
  refine ⟨⟨?_, ?_⟩, hlater, rfl⟩
  · rw [hgraphs]
    intro k hk
    rcases List.mem_append.mp hk with hk | hk
    · exact (h.later hlater).members k hk
    · cases List.mem_singleton.mp hk
      exact ⟨rfl, hg.rebind hspace⟩
  · rw [hgraphs]
    refine List.pairwise_append.mpr ⟨h.separate, List.pairwise_singleton .., fun k hk k' hk' => ?_⟩
    cases List.mem_singleton.mp hk'
    have hseparate := separate_of_shared hinput hid k hk
    exact ⟨hseparate.ids, hseparate.inputs⟩

/-- A member is restored on a space that the group does not have, and then joins. -/
theorem Coherent.restoreMember {r : GraphRecord} (h : gr.Coherent c)
    (hspace : gr.space.key < c.next.length)
    (hrun : Runs (do Group.addGraph gr (← r.restore)) c (.ok gr') c') :
    gr'.Coherent c' ∧ Later c c' ∧ gr'.space = gr.space := by
  obtain ⟨g, c₁, hrestore, hadd⟩ := runs_bind_ok.mp hrun
  obtain ⟨hg, hlater₁, hown⟩ := Graph.coherent_of_restore hrestore
  have hother : g.space ≠ gr.space := by
    rw [hown]
    rintro heq
    exact Nat.lt_irrefl _ (heq ▸ hspace : (⟨c.next.length⟩ : IdSpace).key < c.next.length)
  have hspace₁ := Nat.lt_of_lt_of_le hspace hlater₁.length
  obtain ⟨hgr', hlater, heq⟩ := (h.later hlater₁).addGraph hspace₁ hg hother hadd
  exact ⟨hgr', hlater₁.trans hlater, heq⟩

theorem Coherent.restoreMembers {l : List GraphRecord} (h : gr.Coherent c)
    (hspace : gr.space.key < c.next.length)
    (hrun : Runs (l.foldlM (fun gr member => do Group.addGraph gr (← member.restore)) gr) c
      (.ok gr') c') : gr'.Coherent c' ∧ Later c c' := by
  induction l generalizing gr c with
  | nil =>
    obtain ⟨hgr, rfl⟩ := runs_pure.mp hrun
    cases hgr
    exact ⟨h, .refl _⟩
  | cons r l ih =>
    rw [List.foldlM_cons] at hrun
    obtain ⟨gr₁, c₁, hstep, hrest⟩ := runs_bind_ok.mp hrun
    obtain ⟨hgr₁, hlater₁, heq⟩ := h.restoreMember hspace hstep
    have hspace₁ := Nat.lt_of_lt_of_le hspace hlater₁.length
    obtain ⟨hgr', hlater⟩ := ih hgr₁ (heq ▸ hspace₁) hrest
    exact ⟨hgr', hlater₁.trans hlater⟩

theorem coherent_of_restore {r : GroupRecord} (h : Runs r.restore c (.ok gr) c') :
    gr.Coherent c' ∧ Later c c' := by
  unfold GroupRecord.restore at h
  rw [runs_bind_of_ok Graph.runs_openSpace] at h
  have hempty : (Group.create r.name ⟨c.next.length⟩).Coherent ⟨c.next ++ [r.next]⟩ :=
    ⟨fun k hk => absurd hk List.not_mem_nil, .nil⟩
  obtain ⟨hgr, hlater⟩ := hempty.restoreMembers (by simp [Group.create]) h
  exact ⟨hgr, (c.later_append r.next).trans hlater⟩

end Group

theorem BundleSections.complete_of_check {s : BundleSections} {u : Unit} (h : s.check = .ok u) :
    s.Complete := by
  unfold BundleSections.check at h
  split at h
  · cases h
  · next hone =>
    split at h
    · cases h
    · next hsignature =>
      split at h
      · cases h
      · next hparts =>
        have hparts : ∀ part ∈ s.parts, part.2.1 = part.2.2 := fun part hpart => by
          simpa using List.find?_eq_none.mp hparts part hpart
        simp only [parts, List.forall_mem_cons] at hparts
        obtain ⟨hnodes, hrequirements, hsig, hpublic, hevaluation, hsecret, -⟩ := hparts
        exact ⟨by simpa using hone, by simpa using hsignature, hnodes.symm, hrequirements.symm,
          hsig.symm, hpublic.symm, hevaluation.symm, hsecret.symm⟩

theorem BundleSections.read_ok {s : BundleSections} {blob : Bytes}
    (h : BundleSections.read kind blob = .ok s) :
    Envelope.unwrap blob .keyBundle kind = .ok s ∧ s.params.scheme = kind ∧ s.Complete := by
  unfold BundleSections.read at h
  obtain ⟨s', hunwrap, h⟩ := Except.bind_eq_ok.mp h
  by_cases hscheme : s'.params.scheme = kind
  · rw [if_neg (not_not.mpr hscheme)] at h
    split at h
    · cases h
    · next hcheck =>
      cases h
      exact ⟨hunwrap, hscheme, complete_of_check hcheck⟩
  · rw [if_pos hscheme] at h
    cases h

namespace BundleSections

variable {s : BundleSections} {context : Context} {pub : Option (Public kind)}
  {sec : Option (Secret kind)}

theorem publicHalf_ok (h : s.publicHalf kind context = .ok pub) :
    pub.map (·.key) = s.publicKey ∧
      ∀ p ∈ pub, p.context = context ∧ p.evaluationKeys = s.evaluationKeys := by
  unfold publicHalf at h
  cases hkey : s.publicKey with
  | none =>
    rw [hkey] at h
    cases h
    exact ⟨rfl, by simp⟩
  | some key =>
    rw [hkey] at h
    change some <$> Public.create kind context key s.evaluationKeys = _ at h
    cases hcreate : Public.create kind context key s.evaluationKeys with
    | error e =>
      rw [hcreate] at h
      cases h
    | ok p =>
      rw [hcreate] at h
      cases h
      obtain ⟨hcontext, hp, hkeys⟩ := Public.create_ok hcreate
      refine ⟨congrArg some hp, ?_⟩
      rintro _ ⟨⟩
      exact ⟨hcontext, hkeys⟩

theorem secretHalf_ok (h : s.secretHalf kind context pub = .ok sec) :
    sec.map (·.key) = s.secretKey ∧
      ∀ q ∈ sec, q.context = context ∧ ∀ p ∈ pub, q.keyId = p.keyId := by
  unfold secretHalf at h
  cases hkey : s.secretKey with
  | none =>
    rw [hkey] at h
    cases h
    exact ⟨rfl, by simp⟩
  | some key =>
    rw [hkey] at h
    obtain ⟨half, hcreate, h⟩ := Except.bind_eq_ok.mp h
    obtain ⟨hcontext, hhalf⟩ := Secret.create_ok hcreate
    cases hmatch : pub.any (·.keyId != half.keyId) with
    | true =>
      rw [hmatch] at h
      cases h
    | false =>
      rw [hmatch] at h
      cases h
      refine ⟨congrArg some hhalf, ?_⟩
      rintro _ ⟨⟩
      refine ⟨hcontext, ?_⟩
      rintro p ⟨⟩
      have hid : p.keyId = half.keyId := by simpa using hmatch
      exact hid.symm

end BundleSections

namespace KeyBundle

variable {s : BundleSections} {context : Context} {b : KeyBundle kind}

theorem runs_of_mapM {ε α β σ : Type} {read : α → ExceptT ε (StateM σ) β} {o : Option α}
    {r : Option β} {s s' : σ} (h : Runs (o.mapM read) s (.ok r) s') :
    o = none ∧ r = none ∧ s' = s ∨ ∃ a b, o = some a ∧ r = some b ∧ Runs (read a) s (.ok b) s' := by
  cases o with
  | none =>
    obtain ⟨hr, rfl⟩ := runs_pure.mp h
    cases hr
    exact .inl ⟨rfl, rfl, rfl⟩
  | some a =>
    obtain ⟨b, rfl, hb⟩ := runs_mapM_some.mp h
    exact .inr ⟨a, b, rfl, rfl, hb⟩

/-- A bundle that holds together: its parameters are valid and for its scheme, it has the sections
that are granted and describes one thing, its keys belong to one key pair, and its graphs are
coherent. -/
structure Coherent (b : KeyBundle kind) (c : IdCounters) : Prop where
  scheme : b.context.params.scheme = kind
  params : b.context.params.validate = .ok ()
  carries : b.Carries b.grants
  one : (b.graph.isSome && b.group.isSome) = false
  oneSignature : (b.signature.isSome && b.signatures.isSome) = false
  fingerprint : ∀ p ∈ b.publicHalf, KeyId.ofMaterial p.key.material = p.keyId
  evaluationKeys : ∀ p ∈ b.publicHalf, ∀ keys ∈ p.evaluationKeys, keys.keyId = p.keyId
  secretKey : ∀ p ∈ b.publicHalf, ∀ q ∈ b.secretHalf, q.keyId = p.keyId
  contexts : (∀ p ∈ b.publicHalf, p.context = b.context) ∧ ∀ q ∈ b.secretHalf, q.context = b.context
  graph : ∀ g ∈ b.graph, g.Coherent c
  group : ∀ gr ∈ b.group, gr.Coherent c

theorem restored_graph {r : Option GraphRecord} {g : Option Graph}
    (h : Runs (r.mapM (·.restore)) c (.ok g) c') :
    g.isSome = r.isSome ∧ ∀ k ∈ g, k.Coherent c' := by
  obtain ⟨rfl, rfl, rfl⟩ | ⟨record, k, rfl, rfl, hk⟩ := runs_of_mapM h
  · exact ⟨rfl, by simp⟩
  · refine ⟨rfl, ?_⟩
    rintro _ ⟨⟩
    exact (Graph.coherent_of_restore hk).1

theorem restored_group {r : Option GroupRecord} {gr : Option Group}
    (h : Runs (r.mapM (·.restore)) c (.ok gr) c') :
    gr.isSome = r.isSome ∧ (∀ k ∈ gr, k.Coherent c') ∧ Later c c' := by
  obtain ⟨rfl, rfl, rfl⟩ | ⟨record, k, rfl, rfl, hk⟩ := runs_of_mapM h
  · exact ⟨rfl, by simp, .refl _⟩
  · refine ⟨rfl, ?_, (Group.coherent_of_restore hk).2⟩
    rintro _ ⟨⟩
    exact (Group.coherent_of_restore hk).1

theorem coherent_of_sections (hs : s.Complete) (hscheme : s.params.scheme = kind)
    (hparams : context.params = s.params) (hvalid : s.params.validate = .ok ())
    (h : Runs (ofSections kind s context) c (.ok b) c') :
    b.Coherent c' ∧ b.grants = s.grants ∧ b.context = context := by
  obtain ⟨pub, sec, g, gr, c₁, hpub, hsec, hg, hgr, rfl⟩ := ofSections_ok.mp h
  obtain ⟨hkey, hpub⟩ := BundleSections.publicHalf_ok hpub
  obtain ⟨hsecret, hsec⟩ := BundleSections.secretHalf_ok hsec
  obtain ⟨hsomeGraph, hgraph⟩ := restored_graph hg
  obtain ⟨hsomeGroup, hgroup, hlater⟩ := restored_group hgr
  refine ⟨?_, rfl, rfl⟩
  have hkeys : (pub.bind (·.evaluationKeys)).isSome = s.grants.execution := by
    cases pub with
    | none =>
      -- Evaluation keys are only granted along with the public key.
      have hcarries := hs.publicKey
      rw [← hkey, Grants.carriesPublicKey] at hcarries
      exact (Bool.or_eq_false_iff.mp hcarries.symm).1.symm
    | some p => rw [← hs.evaluationKeys, ← (hpub p rfl).2, Option.bind_some]
  exact
    { scheme := hparams ▸ hscheme
      params := hparams ▸ hvalid
      carries :=
        { publicKey := by rw [← hs.publicKey, ← hkey, Option.isSome_map]
          evaluationKeys := hkeys
          secretKey := by rw [← hs.secretKey, ← hsecret, Option.isSome_map]
          nodes := by rw [← hs.nodes, hsomeGraph, hsomeGroup]
          requirements := hs.requirements
          signature := hs.signature }
      one := by rw [← hs.one, hsomeGraph, hsomeGroup]
      oneSignature := hs.oneSignature
      fingerprint := fun p _ => decide_eq_true_iff.mp p.consistent
      evaluationKeys := fun p _ keys hkeys => p.owned keys hkeys
      secretKey := fun p hp q hq => (hsec q hq).2 p hp
      contexts := ⟨fun p hp => (hpub p hp).1, fun q hq => (hsec q hq).1⟩
      graph := fun g hg => (hgraph g hg).later hlater
      group := hgroup }

/-- A bundle is read only from an intact envelope for bundles of the scheme. It is the one that the
sections in the payload make in the context that the cache has for their parameters, and it holds
together, whoever wrote the bytes. -/
theorem coherent_of_read {blob : Bytes} {cache cache' : ContextCache} {inUse : Context → Bool}
    {load : Allocating BlobError (KeyBundle kind)} {v v' : Vault} (hcache : cache.Reachable)
    (hread : (KeyBundle.read kind blob cache inUse).run v = ((cache', load), v'))
    (hload : Runs load c (.ok b) c') :
    ∃ (e : Envelope) (s : BundleSections), Json.read? blob = some e ∧ e.format = blobFormat ∧
      e.kind = .keyBundle ∧ e.scheme = kind ∧ Blake3.hex e.payload = e.digest ∧
      Json.read? e.payload = some s ∧ b.grants = s.grants ∧ b.context.params = s.params ∧
      (cache.getOrCreate s.params inUse).run v = ((cache', .ok b.context), v') ∧
      b.Coherent c' := by
  unfold KeyBundle.read at hread
  cases hsections : BundleSections.read kind blob with
  | error e =>
    rw [hsections] at hread
    cases hread
    cases (runs_throw.mp hload).1
  | ok s =>
    rw [hsections] at hread
    change StateT.run (cache.getOrCreate s.params inUse >>= _) v = _ at hread
    rw [StateT.run_bind] at hread
    obtain ⟨hunwrap, hscheme, hcomplete⟩ := BundleSections.read_ok hsections
    obtain ⟨e, hblob, hformat, hkind, he, hdigest, hpayload⟩ := Envelope.unwrap_ok hunwrap
    rcases hcontext : (cache.getOrCreate s.params inUse).run v with ⟨⟨cache₁, _ | context⟩, v₁⟩
    · rw [hcontext] at hread
      cases hread
      cases (runs_throw.mp hload).1
    · rw [hcontext] at hread
      cases hread
      obtain ⟨hparams, hvalid⟩ := (hcache.coherent.getOrCreate hcontext).2 context rfl
      obtain ⟨hcoherent, hgrants, rfl⟩ :=
        coherent_of_sections hcomplete hscheme hparams hvalid hload
      exact ⟨e, s, hblob, hformat, hkind, he, hdigest, hpayload, hgrants, hparams, hcontext,
        hcoherent⟩

/-- The bundle of an owner's material is accepted, and its graph goes on past its own ids. -/
theorem coherent_of_read_ownerMaterial :
    ∃ (e : Envelope) (cache' : ContextCache) (load : Allocating BlobError (KeyBundle .bitwise))
      (v' : Vault) (b : KeyBundle .bitwise) (c' : IdCounters) (g : Graph),
      ownerMaterial.write .keyOwner = .ok e ∧ (ContextCache.create 8).Reachable ∧
      (KeyBundle.read .bitwise e.toBytes (.create 8) fun _ => false).run ⟨[]⟩ =
        ((cache', load), v') ∧
      Runs load .empty (.ok b) c' ∧ b.Coherent c' ∧ b.graph = some g ∧ g.Coherent c' := by
  have hco : ∀ co ∈ ownerMaterial.compiled, co.Recordable := by
    rintro _ ⟨⟩
    refine accepted_gateDifference.recordable ⟨?_, List.pairwise_singleton _ _⟩
    simp [Compilation.graphs, gateDifference, Graph.mixedDifference, Graph.blank]
  have hwrite := write_ownerMaterial .keyOwner
  obtain ⟨p, hchecked, hdemands, -⟩ := Material.write_ok hwrite
  have hp := Material.parameters?_of_checked hchecked
  cases hp
  have hsupplies := Material.supplies_of_demands hdemands
  have hread := read_wrap rfl hsupplies (fits_ownerMaterial.sections hco rfl) getOrCreate_create
  obtain ⟨b, c', hb, -, hdelivers⟩ :=
    runs_delivers hco (fun co h => belowLast_ownerMaterial co (mem_whereGranted.mp h).2)
      hchecked hsupplies rfl .empty
  obtain ⟨-, g, hg, -, -⟩ := hdelivers.compiled.of_graph
  obtain ⟨-, -, -, -, -, -, -, -, -, -, -, hcoherent⟩ :=
    coherent_of_read (.create 8) hread hb
  exact ⟨_, _, _, _, b, c', g, hwrite, .create 8, hread, hb, hcoherent, hg, hcoherent.graph g hg⟩

end KeyBundle

end CipherGraph

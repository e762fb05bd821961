import CipherGraph.Proofs.BundleCodecs
import CipherGraph.Proofs.Records
import CipherGraph.Proofs.Sections

/-! # What a bundle is supplied with

Material can be written if its numbers have the sizes of their fields and its graphs can be
recorded. The sections made of it are those that are granted, and they are read back as they are.
-/

namespace CipherGraph

variable {kind : SchemeKind} {m : Material kind} {f : Grants} {p : Parameters} {c : IdCounters}
  {co : Compilation}

namespace Compilation

/-- No graph hides a node, and no two have an id in common. -/
structure Disjoint (co : Compilation) : Prop where
  visible : ∀ cg ∈ co.graphs, cg.graph.hidden = []
  ids : (co.graphs.map (·.graph)).Pairwise fun g k => ∀ id ∈ k.ids, id ∉ g.ids

/-- What lets the graphs of a compilation be restored one after the other. -/
structure Recordable (co : Compilation) : Prop where
  graphs : ∀ cg ∈ co.graphs, cg.graph.Recordable
  names : (co.graphs.map (·.graph.name)).Nodup
  separate : (co.graphs.map (·.graph)).Pairwise Graph.Separate
  listed : ∀ cg, co = .group cg → cg.members.keys = cg.members.values.map (·.graph.name)

theorem Accepted.recordable (h : co.Accepted) (hdisjoint : co.Disjoint) : co.Recordable := by
  have hgraphs : ∀ cg ∈ co.graphs, cg.graph.Recordable := fun cg hcg =>
    (h.reachable hcg).recordable (hdisjoint.visible cg hcg)
  cases h with
  | @graph _ _ _ _ cg =>
    exact ⟨hgraphs, List.nodup_singleton _, List.pairwise_singleton _ _, by rintro _ ⟨⟩⟩
  | @group gr _ _ _ cg hgr h =>
    obtain ⟨hinputs, compiled, hyields, hkeys, rfl, -⟩ := Group.compile_ok hgr.sound h
    have hnames : cg.members.values.map (·.graph.name) = gr.graphs.map (·.name) := hyields.names
    -- Compiling keeps the inputs, which were checked over all members before.
    have hapart : (cg.members.values.map (·.graph)).Pairwise
        fun g k => ∀ name ∈ k.inputs.keys, name ∉ g.inputs.keys := by
      have hflat : (cg.members.values.map (·.graph.inputs)).flatMap (·.keys) =
          gr.graphs.flatMap (·.inputs.keys) := by
        rw [hyields.inputs, List.flatMap_map]
      rw [← hflat, List.flatMap_map] at hinputs
      refine List.pairwise_map.mpr ((List.nodup_flatMap.mp hinputs).2.imp ?_)
      exact fun hab name hk hg => hab hg hk
    refine ⟨hgraphs, hnames ▸ hgr.sound.nodup_names, ?_, ?_⟩
    · exact (hdisjoint.ids.and hapart).imp fun hab => ⟨hab.1, hab.2⟩
    · rintro _ ⟨⟩
      exact hkeys.trans hnames.symm

end Compilation

/-- Ids and widths are words, and constants are not reals. -/
structure Graph.Fits (g : Graph) : Prop where
  width : g.width < UInt32.size
  nodes : ∀ n ∈ g.nodes, n.id < NodeId.bound ∧ n.op.Fits

theorem Operation.arity_le (op : Operation) : op.arity ≤ 3 := by
  cases op with
  | aggregate op => cases op <;> decide
  | _ => simp [arity]

theorem Graph.Recordable.fits_record {g : Graph} (h : g.Recordable) (hfits : g.Fits)
    (hnext : c.peek g.space < NodeId.bound) : (g.toRecord c).Fits where
  width := hfits.width
  next := hnext
  nodes := hfits.nodes
  operands t ht := by
    have hword : ∀ id ∈ g.ids, id < NodeId.bound := by
      intro id hid
      obtain ⟨n, hn, rfl⟩ := List.mem_map.mp hid
      exact (hfits.nodes n hn).1
    obtain ⟨id, hid, ht⟩ := List.mem_flatMap.mp ht
    obtain ⟨position, hlt, rfl⟩ := List.mem_mapIdx.mp ht
    refine ⟨hword id hid, ?_,
      hword _ (h.sound.mem_ids_of_mem_operands h.visible (List.getElem_mem hlt))⟩
    -- A position is below the arity of its node, which is three at most.
    obtain ⟨n, hn, rfl⟩ := List.mem_map.mp hid
    have harity := h.sound.arity n hn
    have hle := n.op.arity_le
    have hsize : 3 < UInt16.size := by decide
    dsimp only
    omega

/-- What is supplied has the sizes in which it is written. -/
structure Compilation.Fits (co : Compilation) : Prop where
  graphs : ∀ cg ∈ co.graphs, cg.graph.Fits ∧ cg.signature.Fits
  requirements : co.requirements.Fits

/-- Keys are made of 32 bytes, and ids are words. -/
structure Material.Fits (m : Material kind) : Prop where
  parameters : ∀ p ∈ m.parameters?, p.Fits
  publicKey : ∀ k ∈ m.publicKey?, k.material.length = 32
  evaluationKeys : ∀ k ∈ m.evaluationKeys?, k.Fits
  secretKey : ∀ k ∈ m.secretKey?, k.seed.length = 32
  compiled : ∀ co ∈ m.compiled, co.Fits
  counters : ∀ space, m.counters.peek space < NodeId.bound

theorem Compilation.Recordable.fits_group {cg : CompiledGroup}
    (h : Compilation.Recordable (.group cg)) (hfits : Compilation.Fits (.group cg))
    (hnext : ∀ space, c.peek space < NodeId.bound) : (cg.toRecord c).Fits where
  next := by
    have hmax (l : List NodeId) (hl : ∀ id ∈ l, id < NodeId.bound) (start : NodeId)
        (hstart : start < NodeId.bound) : l.foldl max start < NodeId.bound := by
      induction l generalizing start with
      | nil => exact hstart
      | cons id l ih =>
        obtain ⟨hid, hl⟩ := List.forall_mem_cons.mp hl
        exact ih hl _ (Nat.max_lt.mpr ⟨hstart, hid⟩)
    refine hmax _ (fun id hid => ?_) 0 (by decide)
    obtain ⟨r, hr, rfl⟩ := List.mem_map.mp hid
    obtain ⟨cg, -, rfl⟩ := List.mem_map.mp hr
    exact hnext _
  members r hr := by
    obtain ⟨cg, hcg, rfl⟩ := List.mem_map.mp hr
    exact (h.graphs cg hcg).fits_record (hfits.graphs cg hcg).1 (hnext _)

theorem mem_whereGranted {α : Type} {granted : Bool} {material : Option α} {a : α} :
    a ∈ whereGranted granted material ↔ granted = true ∧ a ∈ material := by
  cases granted <;> simp

theorem exists_of_mem_whereGranted {α : Type} {granted : Bool} {source : Option Compilation}
    {part : Compilation → Option α} {a : α} (h : a ∈ whereGranted granted (source.bind part)) :
    ∃ co ∈ source, part co = some a :=
  Option.bind_eq_some_iff.mp (mem_whereGranted.mp h).2

theorem Material.Fits.sections (h : m.Fits) (hco : ∀ co ∈ m.compiled, co.Recordable)
    (hp : m.parameters? = some p) : (m.sections f p).Fits where
  params := h.parameters p hp
  graph r hr := by
    obtain ⟨cg | cg, hm, ⟨⟩⟩ := exists_of_mem_whereGranted hr
    exact ((hco _ hm).graphs cg List.mem_cons_self).fits_record
      ((h.compiled _ hm).graphs cg List.mem_cons_self).1 (h.counters _)
  group r hr := by
    obtain ⟨cg | cg, hm, ⟨⟩⟩ := exists_of_mem_whereGranted hr
    exact (hco _ hm).fits_group (h.compiled _ hm) h.counters
  requirements r hr := by
    obtain ⟨co, hm, ⟨⟩⟩ := exists_of_mem_whereGranted hr
    exact (h.compiled co hm).requirements
  signature r hr := by
    obtain ⟨cg | cg, hm, ⟨⟩⟩ := exists_of_mem_whereGranted hr
    exact ((h.compiled _ hm).graphs cg List.mem_cons_self).2
  signatures r hr := by
    obtain ⟨cg | cg, hm, ⟨⟩⟩ := exists_of_mem_whereGranted hr
    have hkeys : (cg.members.map (·.signature)).keys = cg.members.keys := by
      simp [OrderedMap.keys, OrderedMap.map, Function.comp_def]
    refine ⟨?_, fun e he => ?_⟩
    · rw [hkeys, (hco _ hm).listed cg rfl]
      exact (hco _ hm).names
    · obtain ⟨member, hmember, rfl⟩ := List.mem_map.mp he
      exact ((h.compiled _ hm).graphs member.2 (List.mem_map_of_mem hmember)).2
  publicKey k hk := h.publicKey k (mem_whereGranted.mp hk).2
  evaluationKeys k hk := h.evaluationKeys k (mem_whereGranted.mp hk).2
  secretKey k hk := h.secretKey k (mem_whereGranted.mp hk).2

namespace Material

theorem scheme_of_parameters? (h : m.parameters? = some p) : p.scheme = kind := by
  obtain hp | ⟨-, hs⟩ := Option.or_eq_some_iff.mp h
  · obtain ⟨half, -, rfl⟩ := Option.map_eq_some_iff.mp hp
    exact half.scheme_eq
  · obtain ⟨half, -, rfl⟩ := Option.map_eq_some_iff.mp hs
    exact half.scheme_eq

theorem keyId_of_checked (h : m.checked = .ok p) {pub : Public kind} {sec : Secret kind}
    (hp : m.publicHalf = some pub) (hs : m.secretHalf = some sec) : pub.keyId = sec.keyId := by
  obtain ⟨q, hq, -⟩ := Except.bind_eq_ok.mp h
  rw [hp, hs, BundleSections.sharedParameters] at hq
  split_ifs at hq with hsame
  exact hsame.1

/-- All that is granted is at hand. -/
structure Supplies (m : Material kind) (f : Grants) : Prop where
  nodes : f.nodes = true → m.compiled.isSome = true
  keyGeneration : f.keyGeneration = true → m.compiled.isSome = true
  signature : f.signature = true → m.compiled.isSome = true
  publicHalf : f.carriesPublicKey = true → m.publicHalf.isSome = true
  evaluationKeys : f.execution = true → m.evaluationKeys?.isSome = true
  secretHalf : f.decryption = true → m.secretHalf.isSome = true

theorem supplies_of_demands (h : ∀ d ∈ m.demands f, d.2 = false) : m.Supplies f := by
  have hsome {α : Type} {granted : Bool} {material : Option α}
      (h : (granted && material.isNone) = false) : granted = true → material.isSome = true := by
    cases material <;> simp_all
  simp only [demands, List.forall_mem_cons] at h
  obtain ⟨hnodes, hkeys, hsignature, hencryption, hexecution, hevaluation, hsecret, -⟩ := h
  refine ⟨hsome hnodes, hsome hkeys, hsome hsignature, fun hpublic => ?_, hsome hevaluation,
    hsome hsecret⟩
  rcases Bool.or_eq_true_iff.mp hpublic with hx | hx
  · exact hsome hexecution hx
  · exact hsome hencryption hx

end Material

theorem isSome_whereGranted {α : Type} {granted : Bool} {material : Option α}
    (h : granted = true → material.isSome = true) :
    (whereGranted granted material).isSome = granted := by
  cases granted with
  | true => exact h rfl
  | false => rfl

/-- Every section is there if and only if it is granted, and only one thing is described. -/
structure BundleSections.Complete (s : BundleSections) : Prop where
  one : (s.graph.isSome && s.group.isSome) = false
  oneSignature : (s.signature.isSome && s.signatures.isSome) = false
  nodes : (s.graph.isSome || s.group.isSome) = s.grants.nodes
  requirements : s.requirements.isSome = s.grants.keyGeneration
  signature : (s.signature.isSome || s.signatures.isSome) = s.grants.signature
  publicKey : s.publicKey.isSome = s.grants.carriesPublicKey
  evaluationKeys : s.evaluationKeys.isSome = s.grants.execution
  secretKey : s.secretKey.isSome = s.grants.decryption

theorem BundleSections.Complete.check {s : BundleSections} (h : s.Complete) : s.check = .ok () := by
  have hparts : s.parts.find? (fun part => part.2.1 != part.2.2) = none := by
    simp [parts, h.nodes, h.requirements, h.signature, h.publicKey, h.evaluationKeys, h.secretKey]
  unfold BundleSections.check
  rw [if_neg (Bool.eq_false_iff.mp h.one), if_neg (Bool.eq_false_iff.mp h.oneSignature)]
  simp only [hparts]

theorem Material.Supplies.complete (h : m.Supplies f) : (m.sections f p).Complete := by
  have hone {α β : Type} {granted : Bool} {a : Compilation → Option α}
      {b : Compilation → Option β} (hsome : granted = true → m.compiled.isSome = true)
      (hother : ∀ co, (b co).isSome = !(a co).isSome) :
      ((whereGranted granted (m.compiled.bind a)).isSome &&
          (whereGranted granted (m.compiled.bind b)).isSome) = false ∧
        ((whereGranted granted (m.compiled.bind a)).isSome ||
          (whereGranted granted (m.compiled.bind b)).isSome) = granted := by
    cases granted with
    | false => exact ⟨rfl, rfl⟩
    | true =>
      obtain ⟨co, hco⟩ := Option.isSome_iff_exists.mp (hsome rfl)
      cases hfirst : a co <;> simp [hco, hother, hfirst]
  have hpart {α β : Type} {granted : Bool} {material : Option α} {part : α → β}
      (hsome : granted = true → material.isSome = true) :
      (whereGranted granted (material.bind (some <| part ·))).isSome = granted :=
    isSome_whereGranted fun hgranted => by
      cases material with
      | none => exact hsome hgranted
      | some a => rfl
  have hnodes := hone (a := (·.graphRecord? m.counters)) (b := (·.groupRecord? m.counters))
    h.nodes fun co => by cases co <;> rfl
  have hsignature := hone (a := (·.signature?)) (b := (·.signatures?)) h.signature
    fun co => by cases co <;> rfl
  exact
    { one := hnodes.1
      oneSignature := hsignature.1
      nodes := hnodes.2
      requirements := hpart h.keyGeneration
      signature := hsignature.2
      publicKey := hpart h.publicHalf
      evaluationKeys := isSome_whereGranted h.evaluationKeys
      secretKey := hpart h.secretHalf }

theorem Material.Supplies.read_wrap (h : m.Supplies f) (hp : m.parameters? = some p)
    (hfits : (m.sections f p).Fits) :
    BundleSections.read kind (Envelope.wrap .keyBundle kind (m.sections f p)).toBytes =
      .ok (m.sections f p) := by
  have hscheme : (m.sections f p).params.scheme = kind := scheme_of_parameters? hp
  unfold BundleSections.read
  rw [Envelope.unwrap_wrap hfits.travels]
  simp [bind, Except.bind, hscheme, h.complete.check, pure, Except.pure]

end CipherGraph

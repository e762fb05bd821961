import CipherGraph.Blob.Bundle
import CipherGraph.Proofs.Changes
import CipherGraph.Proofs.Tables

/-! # Compilations

What the stages of a compilation hand on, for one graph and for the members of a group. Whatever
is compiled from a reachable graph is reachable itself.
-/

namespace CipherGraph

namespace Graph

variable {g : Graph} {o : CompileOptions} {c c' : IdCounters} {first : Typing} {cg : CompiledGraph}

/-- The results of the stages, from validation to the signature. -/
structure Stages (g : Graph) (o : CompileOptions) (c : IdCounters) (first : Typing)
    (cg : CompiledGraph) : Prop where
  valid : g.validate = []
  typed : g.inferTypes = .ok first
  lowered : (g.lower first ⟨o.scheme, o.scaleBits⟩ c).1 = .ok ()
  graph : cg.graph = (g.lower first ⟨o.scheme, o.scaleBits⟩ c).2.graph.removeDead.2
  types : cg.graph.inferTypes = .ok cg.types
  requirements : cg.graph.requirements cg.types = .ok cg.requirements
  signature : cg.graph.signature cg.types o = .ok cg.signature
  scheme : cg.scheme = o.scheme

theorem runs_compilingOfGraph {α : Type} {r : Except GraphError α} {a : α} :
    Runs (Compiling.ofGraph r) c (.ok a) c' ↔ r = .ok a ∧ c' = c := by
  cases r with
  | ok b =>
    rw [Compiling.ofGraph, runs_pure]
    simp only [Except.ok.injEq]
    exact and_congr_left fun _ => eq_comm
  | error e => simp [Compiling.ofGraph]

/-- The ids that a lowering draws are gone whether or not it succeeds. -/
theorem runs_lowered_iff {t : Typing} {lo : LoweringOptions}
    {r : Except CompileError (Graph × LoweringReport)} :
    Runs (g.lowered t lo) c r c' ↔
      r = (g.lower t lo c).1.map (fun _ => ((g.lower t lo c).2.graph, (g.lower t lo c).2.report)) ∧
        c' = (g.lower t lo c).2.counters := by
  unfold lowered
  rw [runs_get_bind]
  dsimp only
  rw [runs_set_bind]
  rcases (g.lower t lo c).1 with e | _
  · exact runs_throw
  · exact runs_pure

theorem runs_lowered {t : Typing} {lo : LoweringOptions} {g' : Graph} {report : LoweringReport}
    (h : Runs (g.lowered t lo) c (.ok (g', report)) c') :
    (g.lower t lo c).1 = .ok () ∧ g' = (g.lower t lo c).2.graph ∧
      report = (g.lower t lo c).2.report := by
  obtain ⟨hr, -⟩ := runs_lowered_iff.mp h
  rcases hlower : (g.lower t lo c).1 with e | _
  · rw [hlower] at hr
    cases hr
  · rw [hlower] at hr
    cases hr
    exact ⟨rfl, rfl, rfl⟩

theorem compile_ok (h : Runs (g.compile o) c (.ok cg) c') : ∃ first, g.Stages o c first cg := by
  unfold compile at h
  split at h
  · next hvalid =>
    obtain ⟨first, _, h₁, hrest⟩ := runs_bind_ok.mp h
    obtain ⟨hfirst, rfl⟩ := runs_compilingOfGraph.mp h₁
    obtain ⟨⟨lowered, report⟩, _, h₂, hrest⟩ := runs_bind_ok.mp hrest
    obtain ⟨hlowered, rfl, -⟩ := runs_lowered h₂
    obtain ⟨types, _, h₃, hrest⟩ := runs_bind_ok.mp hrest
    obtain ⟨requirements, _, h₄, hrest⟩ := runs_bind_ok.mp hrest
    obtain ⟨signature, _, h₅, hrest⟩ := runs_bind_ok.mp hrest
    obtain ⟨hcg, -⟩ := runs_pure.mp hrest
    cases hcg
    exact ⟨first, hvalid, hfirst, hlowered, rfl, (runs_compilingOfGraph.mp h₃).1,
      (runs_compilingOfGraph.mp h₄).1, (runs_compilingOfGraph.mp h₅).1, rfl⟩
  · obtain ⟨hr, -⟩ := runs_throw.mp h
    cases hr

theorem Stages.reachable (h : g.Stages o c first cg) (hg : g.Reachable) : cg.graph.Reachable := by
  rw [h.graph]
  exact .removeDead ((path_lower g first _ c).reachable hg)

theorem Stages.width_eq (h : g.Stages o c first cg) : cg.graph.width = g.width := by
  rw [h.graph]
  exact (path_lower g first _ c).width_eq

theorem Stages.name_eq (h : g.Stages o c first cg) : cg.graph.name = g.name := by
  rw [h.graph]
  exact (path_lower g first _ c).name_eq

theorem Stages.inputs_eq (h : g.Stages o c first cg) : cg.graph.inputs = g.inputs := by
  rw [h.graph]
  exact (path_lower g first _ c).tables_eq.1

theorem Stages.outputs_eq (h : g.Stages o c first cg) : cg.graph.outputs = g.outputs := by
  rw [h.graph]
  exact (path_lower g first _ c).tables_eq.2

theorem Stages.original (h : g.Stages o c first cg) (hg : g.Reachable) {n : Node}
    (hop : n.op.isOriginal = true) (hn : n ∈ cg.graph.nodes) : n ∈ g.nodes := by
  rw [h.graph] at hn
  exact (path_lower g first _ c).original hg hop (mem_nodes_removeDead.mp hn).1

/-- A compilation hides no node unless the counter wraps around. -/
theorem Stages.hidden_eq_nil (h : g.Stages o c first cg) (hg : g.Built c)
    (hroom : c.peek g.space + ((g.lower first ⟨o.scheme, o.scaleBits⟩ c).2.graph.nodeCount -
      g.nodeCount) < NodeId.bound) : cg.graph.hidden = [] := by
  have hpath := path_lower g first ⟨o.scheme, o.scaleBits⟩ c
  rw [h.graph]
  exact (Lower.Path.built hpath hg hroom).visible

end Graph

namespace Group

/-- Groups that come out of the program, whose members may have been worked on. -/
inductive Reachable : Group → Prop where
  | create (name : String) (space : IdSpace) : Reachable (Group.create name space)
  | newGraph {gr gr' : Group} {name : String} {width : Nat} (hgr : Reachable gr)
      (h : gr.newGraph name width = .ok gr') : Reachable gr'
  | addGraph {gr gr' : Group} {g : Graph} {c c' : IdCounters} (hgr : Reachable gr)
      (hg : g.Reachable) (h : Runs (gr.addGraph g) c (.ok gr') c') : Reachable gr'
  | edited {gr : Group} {g : Graph} (hgr : Reachable gr) (hg : g.Reachable)
      (h : gr.members.contains g.name = true) :
      Reachable { gr with members := gr.members.insert g.name g }

/-- Members are reachable and listed under their names. -/
structure Sound (gr : Group) : Prop where
  keys : gr.members.keys.Nodup
  members : ∀ e ∈ gr.members.entries, e.2.name = e.1 ∧ e.2.Reachable

variable {gr gr' : Group} {o : CompileOptions} {c c' : IdCounters} {cg : CompiledGroup}

theorem Sound.insert (h : gr.Sound) {name : String} {g : Graph} (hname : g.name = name)
    (hg : g.Reachable) : Sound { gr with members := gr.members.insert name g } where
  keys := OrderedMap.nodup_keys_insert h.keys
  members e he := by
    rcases OrderedMap.mem_entries_insert he with rfl | he
    · exact ⟨hname, hg⟩
    · exact h.members e he

/-- A graph joins a group under a new name, with inputs that no member has. On the group's space it
stays as it is; from another one it moves, with ids that no member has. -/
theorem addGraph_ok {g : Graph} (h : Runs (gr.addGraph g) c (.ok gr') c') :
    gr.members.contains g.name = false ∧ gr.sharedInput? g = none ∧
      (g.space = gr.space ∧ c' = c ∧ gr' = { gr with members := gr.members.insert g.name g } ∨
        g.space ≠ gr.space ∧ gr.sharedId? g = none ∧ c' = c.advance gr.space (c.peek g.space) ∧
          gr' = { gr with
            members := gr.members.insert g.name { g with space := gr.space } }) := by
  unfold addGraph at h
  cases hname : gr.members.contains g.name with
  | true => simp [hname] at h
  | false =>
    refine ⟨rfl, ?_⟩
    cases hinput : gr.sharedInput? g with
    | some name => simp [hname, hinput] at h
    | none =>
      refine ⟨rfl, ?_⟩
      by_cases hspace : g.space = gr.space
      · simp only [hname, hinput, hspace] at h
        obtain ⟨hgr, hc⟩ := runs_pure.mp h
        cases hgr
        exact .inl ⟨hspace, hc, rfl⟩
      · cases hid : gr.sharedId? g with
        | some id => simp [hname, hinput, hspace, hid] at h
        | none =>
          simp only [hname, hinput, hspace, hid] at h
          obtain ⟨moved, _, hmoved, hrest⟩ := runs_bind_ok.mp h
          obtain ⟨hgr, rfl⟩ := runs_pure.mp hrest
          obtain ⟨hmoved, rfl⟩ := runs_liftM_state.mp hmoved
          cases hmoved
          cases hgr
          exact .inr ⟨hspace, rfl, rfl, rfl⟩

theorem Reachable.sound (h : gr.Reachable) : gr.Sound := by
  induction h with
  | create => exact ⟨List.nodup_nil, fun e he => nomatch he⟩
  | @newGraph gr gr' name width _ h ih =>
    unfold Group.newGraph at h
    split at h
    · cases h
    · obtain ⟨g, hg, hgr⟩ := Except.bind_eq_ok.mp h
      cases hgr
      refine ih.insert ?_ (.create hg)
      obtain ⟨-, rfl⟩ := Graph.create_ok.mp hg
      rfl
  | addGraph _ hg h ih =>
    obtain ⟨-, -, ⟨-, -, rfl⟩ | ⟨-, -, -, rfl⟩⟩ := addGraph_ok h
    · exact ih.insert rfl hg
    · exact ih.insert rfl (.rebind hg _)
  | edited _ hg _ ih => exact ih.insert rfl hg

theorem repeatedInput?_eq_none {l : List (String × String)} {seen : List String}
    (h : repeatedInput? l seen = none) :
    (l.map (·.1)).Nodup ∧ ∀ name ∈ l.map (·.1), name ∉ seen := by
  induction l generalizing seen with
  | nil => exact ⟨.nil, fun _ hn => absurd hn List.not_mem_nil⟩
  | cons e l ih =>
    obtain ⟨name, graph⟩ := e
    rw [repeatedInput?] at h
    split at h
    · cases h
    · next hseen =>
      obtain ⟨hl, hfree⟩ := ih h
      refine ⟨List.nodup_cons.mpr ⟨fun hmem => hfree name hmem List.mem_cons_self, hl⟩, ?_⟩
      exact List.forall_mem_cons.mpr
        ⟨hseen, fun k hk hmem => hfree k hk (List.mem_cons_of_mem _ hmem)⟩

theorem repeatedInput?_of_nodup {l : List (String × String)} {seen : List String}
    (h : (l.map (·.1)).Nodup) (hfree : ∀ name ∈ l.map (·.1), name ∉ seen) :
    repeatedInput? l seen = none := by
  induction l generalizing seen with
  | nil => rfl
  | cons e l ih =>
    obtain ⟨name, graph⟩ := e
    obtain ⟨hname, hl⟩ := List.nodup_cons.mp h
    obtain ⟨hunseen, hfree⟩ := List.forall_mem_cons.mp hfree
    rw [repeatedInput?, if_neg hunseen]
    refine ih hl fun k hk hmem => ?_
    rcases List.mem_cons.mp hmem with rfl | hmem
    · exact hname hk
    · exact hfree k hk hmem

theorem checkInputs_iff :
    gr.checkInputs = .ok () ↔ (gr.graphs.flatMap (·.inputs.keys)).Nodup := by
  have hkeys : (gr.graphs.flatMap fun g => g.inputs.keys.map (·, g.name)).map (·.1) =
      gr.graphs.flatMap (·.inputs.keys) := by
    rw [List.map_flatMap]
    simp [Function.comp_def]
  unfold checkInputs
  constructor
  · intro h
    split at h
    · cases h
    · next hnone => exact hkeys ▸ (repeatedInput?_eq_none hnone).1
  · intro h
    rw [repeatedInput?_of_nodup (hkeys ▸ h) fun _ _ => List.not_mem_nil]

/-- What compiling some graphs one by one yields. -/
structure Yields (graphs : List Graph) (o : CompileOptions) (compiled : List CompiledGraph) :
    Prop where
  each : ∀ m ∈ compiled, ∃ g ∈ graphs, ∃ c c', Runs (g.compile o) c (.ok m) c'
  names : compiled.map (·.graph.name) = graphs.map (·.name)
  inputs : compiled.map (·.graph.inputs) = graphs.map (·.inputs)

theorem Yields.cons {graphs : List Graph} {compiled : List CompiledGraph} {g : Graph}
    {m : CompiledGraph} (h : Yields graphs o compiled) (hm : Runs (g.compile o) c (.ok m) c') :
    Yields (g :: graphs) o (m :: compiled) := by
  obtain ⟨_, hstages⟩ := Graph.compile_ok hm
  refine ⟨fun k hk => ?_, ?_, ?_⟩
  · rcases List.mem_cons.mp hk with rfl | hk
    · exact ⟨g, List.mem_cons_self, _, _, hm⟩
    · obtain ⟨g', hg', hrun⟩ := h.each k hk
      exact ⟨g', List.mem_cons_of_mem _ hg', hrun⟩
  · rw [List.map_cons, List.map_cons, h.names, hstages.name_eq]
  · rw [List.map_cons, List.map_cons, h.inputs, hstages.inputs_eq]

theorem foldlM_compile_ok {graphs : List Graph} {acc : CompiledGroup}
    (hnames : (graphs.map (·.name)).Nodup) (hnew : ∀ g ∈ graphs, g.name ∉ acc.members.keys)
    (h : Runs (graphs.foldlM (fun (acc : CompiledGroup) g => do
      return acc.add g.name (← g.compile o)) acc) c (.ok cg) c') :
    ∃ compiled : List CompiledGraph, Yields graphs o compiled ∧
      cg.members.keys = acc.members.keys ++ graphs.map (·.name) ∧
      cg.members.values = acc.members.values ++ compiled ∧ cg.scheme = acc.scheme ∧
      cg.requirements =
        (compiled.map (·.requirements)).foldl KeyRequirements.union acc.requirements := by
  induction graphs generalizing acc c with
  | nil =>
    obtain ⟨hcg, -⟩ := runs_pure.mp h
    cases hcg
    exact ⟨[], ⟨by simp, rfl, rfl⟩, by simp, by simp, rfl, rfl⟩
  | cons g graphs ih =>
    obtain ⟨hname, hnames⟩ := List.nodup_cons.mp hnames
    obtain ⟨hfirst, hnew⟩ := List.forall_mem_cons.mp hnew
    rw [List.foldlM_cons] at h
    obtain ⟨_, _, h₁, hrest⟩ := runs_bind_ok.mp h
    obtain ⟨m, _, hm, hadd⟩ := runs_bind_ok.mp h₁
    obtain ⟨hadd, -⟩ := runs_pure.mp hadd
    cases hadd
    have hentries := OrderedMap.entries_insert_of_not_mem (v := m) hfirst
    have hkeys : (acc.add g.name m).members.keys = acc.members.keys ++ [g.name] := by
      rw [CompiledGroup.add, OrderedMap.keys, hentries, List.map_append]
      rfl
    have hlater : ∀ k ∈ graphs, k.name ∉ (acc.add g.name m).members.keys := fun k hk => by
      rw [hkeys, List.mem_append, List.mem_singleton]
      rintro (hmem | heq)
      · exact hnew k hk hmem
      · exact hname (List.mem_map.mpr ⟨k, hk, heq⟩)
    obtain ⟨compiled, hyields, hkeys', hvalues, hscheme, hreq⟩ := ih hnames hlater hrest
    refine ⟨m :: compiled, hyields.cons hm, ?_, ?_, hscheme, hreq⟩
    · rw [hkeys', hkeys, List.append_assoc]
      rfl
    · rw [hvalues, CompiledGroup.add, OrderedMap.values, hentries]
      simp [OrderedMap.values]

theorem Sound.map_name (h : gr.Sound) : gr.graphs.map (·.name) = gr.members.keys := by
  rw [graphs, OrderedMap.values, List.map_map]
  exact List.map_congr_left fun e he => (h.members e he).1

theorem Sound.nodup_names (h : gr.Sound) : (gr.graphs.map (·.name)).Nodup := h.map_name ▸ h.keys

theorem compile_ok (hgr : gr.Sound) (h : Runs (gr.compile o) c (.ok cg) c') :
    (gr.graphs.flatMap (·.inputs.keys)).Nodup ∧ ∃ compiled : List CompiledGraph,
      Yields gr.graphs o compiled ∧ cg.members.keys = gr.graphs.map (·.name) ∧
        cg.members.values = compiled ∧ cg.scheme = o.scheme ∧
        cg.requirements = (compiled.map (·.requirements)).foldl KeyRequirements.union .none := by
  unfold compile at h
  obtain ⟨_, _, hinputs, hrest⟩ := runs_bind_ok.mp h
  exact ⟨checkInputs_iff.mp (Graph.runs_compilingOfGraph.mp hinputs).1,
    foldlM_compile_ok hgr.nodup_names (fun _ _ => by simp [OrderedMap.keys,
      EmptyCollection.emptyCollection, OrderedMap.empty]) hrest⟩

end Group

namespace Compilation

def graphs : Compilation → List CompiledGraph
  | .graph c => [c]
  | .group c => c.members.values

/-- What the compiler makes of reachable graphs and groups. -/
inductive Accepted : Compilation → Prop where
  | graph {g : Graph} {o : CompileOptions} {c c' : IdCounters} {cg : CompiledGraph}
      (hg : g.Reachable) (h : Runs (g.compile o) c (.ok cg) c') : Accepted (.graph cg)
  | group {gr : Group} {o : CompileOptions} {c c' : IdCounters} {cg : CompiledGroup}
      (hgr : gr.Reachable) (h : Runs (gr.compile o) c (.ok cg) c') : Accepted (.group cg)

variable {co : Compilation} {cg : CompiledGraph}

theorem Accepted.compiled (h : co.Accepted) (hm : cg ∈ co.graphs) :
    ∃ g : Graph, g.Reachable ∧ ∃ o c c', Runs (g.compile o) c (.ok cg) c' := by
  cases h with
  | graph hg h =>
    cases List.mem_singleton.mp hm
    exact ⟨_, hg, _, _, _, h⟩
  | group hgr h =>
    obtain ⟨-, compiled, hyields, -, hvalues, -⟩ := Group.compile_ok hgr.sound h
    obtain ⟨g, hg, c, c', hrun⟩ := hyields.each cg (hvalues ▸ hm)
    obtain ⟨e, he, rfl⟩ := List.mem_map.mp hg
    exact ⟨_, (hgr.sound.members e he).2, _, c, c', hrun⟩

theorem Accepted.reachable (h : co.Accepted) (hm : cg ∈ co.graphs) : cg.graph.Reachable := by
  obtain ⟨g, hg, o, _, _, hrun⟩ := h.compiled hm
  obtain ⟨_, hstages⟩ := Graph.compile_ok hrun
  exact hstages.reachable hg

/-- What pooling keeps is called for together if and only if one of the graphs calls for it. -/
theorem Accepted.requirements_iff (h : co.Accepted) {P : KeyRequirements → Prop}
    (hunion : ∀ r k, P (r.union k) ↔ P r ∨ P k) (hnone : ¬ P .none) :
    P co.requirements ↔ ∃ c ∈ co.graphs, P c.requirements := by
  have hfold (l : List KeyRequirements) (r : KeyRequirements) :
      P (l.foldl KeyRequirements.union r) ↔ P r ∨ ∃ k ∈ l, P k := by
    induction l generalizing r with
    | nil => simp
    | cons k l ih => rw [List.foldl_cons, ih, hunion, or_assoc, List.exists_mem_cons_iff]
  cases h with
  | graph => simp [requirements, graphs]
  | group hgr h =>
    obtain ⟨-, compiled, -, -, hvalues, -, hreq⟩ := Group.compile_ok hgr.sound h
    rw [requirements, hreq, hfold, or_iff_right hnone, graphs, hvalues]
    simp

theorem Accepted.le_requirements (h : co.Accepted) {f : KeyRequirements → Nat}
    (hunion : ∀ r k, f (r.union k) = max (f r) (f k)) (hnone : f .none = 0) (hm : cg ∈ co.graphs) :
    f cg.requirements ≤ f co.requirements := by
  by_contra hlt
  have hiff := h.requirements_iff (P := fun r => f cg.requirements ≤ f r)
    (fun r k => by rw [hunion]; omega) fun hle => hlt (by omega)
  exact hlt (hiff.mpr ⟨cg, hm, Nat.le_refl _⟩)

theorem Accepted.relinearize_iff_exists (h : co.Accepted) :
    co.requirements.relinearize = true ↔ ∃ c ∈ co.graphs, c.requirements.relinearize = true :=
  h.requirements_iff (P := fun r => r.relinearize = true)
    (fun r k => by simp [KeyRequirements.union]) (by simp [KeyRequirements.none])

theorem Accepted.mem_rotationSteps (h : co.Accepted) (step : Int) :
    step ∈ co.requirements.rotationSteps ↔ ∃ c ∈ co.graphs, step ∈ c.requirements.rotationSteps :=
  h.requirements_iff (P := fun r => step ∈ r.rotationSteps)
    (fun r k => by simp [KeyRequirements.union, Ascending.mem_union])
    (by simp [KeyRequirements.none])

end Compilation

end CipherGraph

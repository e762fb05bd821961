import CipherGraph.Proofs.GroupRecords
import CipherGraph.Proofs.Supported
import CipherGraph.Proofs.Workshops

/-! # Compiling beside other work

A compilation lowers a copy, which draws ids from the counter that the original and other graphs use
as well.
-/

namespace CipherGraph

open Workshop (Course Event)

variable {space : IdSpace}

namespace Lower

variable {s s' : LoweringState} {others : List Graph}

/-- A change to the copy leaves the other graphs alone and hands out an id for every node added. -/
theorem Change.course (h : Change s s') (hs : s.graph.Sound) (others : List Graph) :
    ∃ ids, Course space ⟨others ++ [s.graph], s.counters⟩ ids ⟨others ++ [s'.graph], s'.counters⟩ ∧
      s'.graph.nodeCount = s.graph.nodeCount + ids.length := by
  have hlast : (others ++ [s.graph])[others.length]? = some s.graph := by simp
  have hset (g : Graph) : (others ++ [s.graph]).set others.length g = others ++ [g] := by simp
  cases h with
  | @emitted op operands id graph counters type hop h =>
    have hmade : Event space ⟨others ++ [s.graph], s.counters⟩ [id] _ := .made hlast h
    rw [hset] at hmade
    refine ⟨[id], .single hmade, ?_⟩
    obtain ⟨-, -, -, -, -, rfl⟩ := Graph.makeNode_ok.mp h
    rw [Graph.declare_of_isOriginal hop]
    exact Graph.nodeCount_grow_of_ascending hs.ascending _ _
  | reported => exact ⟨[], .refl _, rfl⟩
  | @replaced old new n graph h =>
    have hreplaced : Event space ⟨others ++ [s.graph], s.counters⟩ [] _ := .replaced hlast h
    rw [hset] at hreplaced
    refine ⟨[], .single hreplaced, ?_⟩
    obtain ⟨_, rfl⟩ := Graph.replaceUses_frame h
    rfl

theorem Path.course (h : Path s s') (hs : s.graph.Reachable) (others : List Graph) :
    ∃ ids, Course space ⟨others ++ [s.graph], s.counters⟩ ids ⟨others ++ [s'.graph], s'.counters⟩ ∧
      s'.graph.nodeCount = s.graph.nodeCount + ids.length := by
  induction h with
  | refl => exact ⟨[], .refl _, rfl⟩
  | tail hp hc ih =>
    obtain ⟨ids, hcourse, hcount⟩ := ih
    obtain ⟨new, hcourse', hcount'⟩ := hc.course (Path.reachable hp hs).sound others
    refine ⟨ids ++ new, hcourse.trans hcourse', ?_⟩
    rw [hcount', hcount, List.length_append, Nat.add_assoc]

end Lower

namespace Graph

variable {g : Graph} {o : CompileOptions} {c c' : IdCounters}
  {r : Except CompileError CompiledGraph}

theorem state_of_compilingOfGraph {α : Type} {x : Except GraphError α} {r : Except CompileError α}
    (h : Runs (Compiling.ofGraph x) c r c') : c' = c := by
  cases x with
  | ok a => exact (runs_pure.mp h).2
  | error e => exact (runs_throw.mp h).2

/-- However a compilation ends, the ids that it has drawn are those of its lowering, if it got so
far. -/
theorem compile_counters_cases (h : Runs (g.compile o) c r c') :
    c' = (g.lowering o c).counters ∨ c' = c ∧ ∀ cg, r ≠ .ok cg := by
  cases r with
  | ok cg => exact .inl (compile_counters h)
  | error e =>
    unfold compile at h
    split at h
    · rcases runs_bind_error.mp h with h | ⟨first, c₁, h₁, hrest⟩
      · exact .inr ⟨state_of_compilingOfGraph h, nofun⟩
      · obtain ⟨hfirst, hc₁⟩ := runs_compilingOfGraph.mp h₁
        rw [hc₁] at hrest
        left
        rw [lowering_eq hfirst]
        rcases runs_bind_error.mp hrest with h | ⟨⟨graph, report⟩, c₂, h₂, hrest⟩
        · exact (runs_lowered_iff.mp h).2
        · rw [← (runs_lowered_iff.mp h₂).2]
          rcases runs_bind_error.mp hrest with h | ⟨types, c₃, h₃, hrest⟩
          · exact state_of_compilingOfGraph h
          · rw [← state_of_compilingOfGraph h₃]
            rcases runs_bind_error.mp hrest with h | ⟨requirements, c₄, h₄, hrest⟩
            · exact state_of_compilingOfGraph h
            · rw [← state_of_compilingOfGraph h₄]
              rcases runs_bind_error.mp hrest with h | ⟨signature, c₅, h₅, hend⟩
              · exact state_of_compilingOfGraph h
              · cases (runs_pure.mp hend).1
    · exact .inr ⟨(runs_throw.mp h).2, nofun⟩

theorem course_lowering (space : IdSpace) (hg : g.Reachable) (others : List Graph) :
    ∃ ids, Course space ⟨others ++ [g], c⟩ ids
        ⟨others ++ [(g.lowering o c).graph], (g.lowering o c).counters⟩ ∧
      ids.length = g.added o c := by
  unfold added lowering
  cases g.inferTypes with
  | ok t =>
    obtain ⟨ids, hcourse, hcount⟩ := (path_lower g t ⟨o.scheme, o.scaleBits⟩ c).course hg others
    refine ⟨ids, hcourse, ?_⟩
    dsimp only
    rw [hcount]
    exact (Nat.add_sub_cancel_left ..).symm
  | error e => exact ⟨[], .refl _, (Nat.sub_self _).symm⟩

end Graph

theorem Group.InTurn.unique {graphs : List Graph} {o : CompileOptions} {c c' c'' : IdCounters}
    {compiled compiled' : List CompiledGraph} (h : InTurn o graphs c compiled c')
    (h' : InTurn o graphs c compiled' c'') : compiled = compiled' := by
  induction h generalizing compiled' with
  | nil =>
    cases h'
    rfl
  | cons hm _ ih =>
    cases h' with
    | cons hm' hrest' =>
      obtain ⟨heq, rfl⟩ := hm.unique hm'
      cases heq
      rw [ih hrest']

namespace Workshop

variable {w : Workshop} {o : CompileOptions} {c' : IdCounters}

/-- A compilation copies a graph and works on the copy, whatever comes of it. -/
theorem course_compile (space : IdSpace) {g : Graph} {r : Except CompileError CompiledGraph}
    (hg : g ∈ w.graphs) (hreach : g.Reachable) (h : Runs (g.compile o) w.counters r c') :
    ∃ ids copy, Course space w ids ⟨w.graphs ++ [copy], c'⟩ ∧
      ∀ cg, r = .ok cg → copy = cg.graph ∧ ids.length = g.added o w.counters := by
  have hcopied : Course space w [] ⟨w.graphs ++ [g], w.counters⟩ := .single (.copied hg)
  obtain ⟨ids, hlowered, hlength⟩ :=
    g.course_lowering (o := o) (c := w.counters) space hreach w.graphs
  rcases g.compile_counters_cases h with rfl | ⟨rfl, herror⟩
  · cases r with
    | ok cg =>
      have hlast : (w.graphs ++ [(g.lowering o w.counters).graph])[w.graphs.length]? =
          some (g.lowering o w.counters).graph := by simp
      have hcleaned := (hcopied.trans hlowered).tail (.cleaned hlast)
      rw [List.set_append_right _ _ (Nat.le_refl _), Nat.sub_self, List.set_cons_zero,
        ← Graph.compile_graph h, List.append_nil] at hcleaned
      refine ⟨ids, cg.graph, hcleaned, ?_⟩
      rintro _ ⟨rfl⟩
      exact ⟨rfl, hlength⟩
    | error e => exact ⟨ids, _, hcopied.trans hlowered, nofun⟩
  · exact ⟨[], g, hcopied, fun cg hcg => absurd hcg (herror cg)⟩

theorem course_foldlM_compile (space : IdSpace) {graphs : List Graph} {acc : CompiledGroup}
    {r : Except CompileError CompiledGroup}
    (hgraphs : ∀ g ∈ graphs, g ∈ w.graphs ∧ g.Reachable)
    (h : Runs (graphs.foldlM (fun (acc : CompiledGroup) g => do
      return acc.add g.name (← g.compile o)) acc) w.counters r c') :
    ∃ ids copies, Course space w ids ⟨w.graphs ++ copies, c'⟩ ∧
      ∀ cg, r = .ok cg → ∃ compiled, Group.InTurn o graphs w.counters compiled c' ∧
        copies = compiled.map (·.graph) ∧ ids.length = Group.addedInTurn o graphs w.counters := by
  induction graphs generalizing acc w with
  | nil =>
    obtain ⟨rfl, rfl⟩ := runs_pure.mp h
    refine ⟨[], [], by rw [List.append_nil]; exact .refl w, ?_⟩
    exact fun _ _ => ⟨[], .nil _, rfl, rfl⟩
  | cons g graphs ih =>
    obtain ⟨⟨hg, hreach⟩, hgraphs⟩ := List.forall_mem_cons.mp hgraphs
    rw [List.foldlM_cons] at h
    rcases runs_bind h with ⟨e, hfirst, rfl⟩ | ⟨acc', c₁, hfirst, hrest⟩
    · rcases runs_bind_error.mp hfirst with hm | ⟨_, _, -, hadd⟩
      · obtain ⟨ids, copy, hcourse, -⟩ := course_compile space hg hreach hm
        exact ⟨ids, [copy], hcourse, nofun⟩
      · cases (runs_pure.mp hadd).1
    · obtain ⟨m, _, hm, hadd⟩ := runs_bind_ok.mp hfirst
      obtain ⟨hadd, rfl⟩ := runs_pure.mp hadd
      cases hadd
      obtain ⟨ids, copy, hcourse, hok⟩ := course_compile space hg hreach hm
      obtain ⟨rfl, hlength⟩ := hok m rfl
      obtain ⟨new, copies, hcourse', hall⟩ :=
        ih (w := ⟨w.graphs ++ [m.graph], c₁⟩)
          (fun k hk => ⟨List.mem_append_left _ (hgraphs k hk).1, (hgraphs k hk).2⟩) hrest
      rw [List.append_assoc, List.singleton_append] at hcourse'
      refine ⟨ids ++ new, m.graph :: copies, hcourse.trans hcourse', ?_⟩
      rintro cg rfl
      obtain ⟨compiled, hturn, rfl, hlength'⟩ := hall cg rfl
      refine ⟨m :: compiled, .cons hm hturn, rfl, ?_⟩
      rw [List.length_append, hlength, hlength', Group.addedInTurn, Graph.compile_counters hm]

theorem course_compileGroup (space : IdSpace) {gr : Group}
    {r : Except CompileError CompiledGroup} (hgr : gr.Sound)
    (hgraphs : ∀ g ∈ gr.graphs, g ∈ w.graphs ∧ g.Reachable)
    (h : Runs (gr.compile o) w.counters r c') :
    ∃ ids copies, Course space w ids ⟨w.graphs ++ copies, c'⟩ ∧
      ∀ cg, r = .ok cg → copies = cg.members.values.map (·.graph) ∧
        ids.length = gr.added o w.counters := by
  have hrun := h
  unfold Group.compile at h
  rcases runs_bind h with ⟨e, hcheck, rfl⟩ | ⟨_, c₁, hcheck, hrest⟩
  · obtain rfl := Graph.state_of_compilingOfGraph hcheck
    exact ⟨[], [], by rw [List.append_nil]; exact .refl w, nofun⟩
  · obtain rfl := Graph.state_of_compilingOfGraph hcheck
    obtain ⟨ids, copies, hcourse, hok⟩ := course_foldlM_compile space hgraphs hrest
    refine ⟨ids, copies, hcourse, ?_⟩
    rintro cg rfl
    obtain ⟨compiled, hturn, rfl, hlength⟩ := hok cg rfl
    rw [hturn.unique (Group.inTurn_of_compile hgr hrun).1]
    exact ⟨rfl, hlength⟩

end Workshop

end CipherGraph

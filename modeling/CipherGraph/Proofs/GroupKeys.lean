import CipherGraph.Proofs.Costs
import CipherGraph.Proofs.GroupRecords
import CipherGraph.Proofs.Lowering
import CipherGraph.Proofs.SchemeFit

/-! # Keys for a group

What the analysis asks for is exact, and the members of a group ask for the same keys in whatever
order they are compiled: the ids that a compilation draws differ, but what the outputs cost does
not.
-/

namespace CipherGraph

open KeyRequirements

namespace Graph

variable {g : Graph} {o : CompileOptions} {c c' c₁ c₁' : IdCounters} {cg cg' : CompiledGraph}
  {v : NodeId → Meaning Cost}

theorem Solves.removeDead {V : Type} {I : Interpretation V} {scaleBits : Nat}
    {v : NodeId → Meaning V} (hs : g.Solves I scaleBits v) :
    g.removeDead.2.Solves I scaleBits v := by
  intro n hn
  obtain ⟨hn, hlive⟩ := mem_nodes_removeDead.mp hn
  rw [operands_removeDead hlive]
  exact hs n hn

theorem Reachable.needed_of_removeDead (hg : g.Reachable) (hv : g.hidden = [])
    (hlive : g.removeDead.2 = g) : ∀ n ∈ g.nodes, g.Needed n := by
  intro n hn
  rw [← hlive] at hn
  obtain ⟨hn, hlive⟩ := mem_nodes_removeDead.mp hn
  exact needed_of_live hg hv hn hlive

theorem Stages.output_mem_iff {first : Typing} (h : g.Stages o c first cg) (hg : g.Reachable)
    (hv : cg.graph.hidden = []) {out : NodeId} {name : String} :
    ⟨out, .output name⟩ ∈ cg.graph.nodes ↔ ⟨out, .output name⟩ ∈ g.nodes := by
  refine ⟨h.original hg rfl, fun hn => ?_⟩
  have hpath := path_lower g first ⟨o.scheme, o.scaleBits⟩ c
  rw [h.graph] at hv ⊢
  have hkept := (hpath.kept hg hv hn).1
  exact mem_nodes_removeDead.mpr ⟨hkept,
    live_of_needed (hpath.reachable hg) hv hkept (.inr (.inl ⟨name, rfl⟩))⟩

theorem totals_of_compile (hg : g.Reachable) (h : Runs (g.compile o) c (.ok cg) c')
    (hv : cg.graph.hidden = []) (hs : g.Solves (costs g.width) o.scaleBits v) :
    Totals g.width (g.outputCosts v) cg.requirements := by
  obtain ⟨first, hstages⟩ := compile_ok h
  have hlow : (g.lower first ⟨o.scheme, o.scaleBits⟩ c).2.graph.hidden = [] := by
    rw [hstages.graph] at hv
    exact hv
  have hvisible := (path_lower g first ⟨o.scheme, o.scaleBits⟩ c).hidden_eq_nil hlow
  obtain ⟨rank, hrank⟩ := hg.sound.exists_rank hvisible hstages.typed
  obtain ⟨μ, hfaithful, hkeep⟩ := preserves_lower (costs_lawful g.width) hg.sound
    (.inr (costs_symmetric g.width _)) hstages.typed hlow hrank hs
  have hreach := hstages.reachable hg
  have hsolves : cg.graph.Solves (costs cg.graph.width) o.scaleBits μ.value := by
    rw [hstages.width_eq, hstages.graph]
    exact hfaithful.solves.removeDead
  have hneeded := hreach.needed_of_removeDead hv (by rw [hstages.graph, removeDead_removeDead])
  have hvalue {out : NodeId} {name : String} (hn : ⟨out, .output name⟩ ∈ g.nodes) :
      μ.value out = v out := (hkeep out (mem_ids_of_mem_nodes hn)).2
  have houtputs : cg.graph.outputCosts μ.value = g.outputCosts v := by
    ext x
    constructor
    · rintro ⟨out, name, hn, rfl⟩
      have hn := (hstages.output_mem_iff hg hv).mp hn
      exact ⟨out, name, hn, by rw [hvalue hn]⟩
    · rintro ⟨out, name, hn, rfl⟩
      exact ⟨out, name, (hstages.output_mem_iff hg hv).mpr hn, by rw [hvalue hn]⟩
  have htotals := hsolves.totals hreach.sound hv hstages.types hneeded hstages.requirements
  rwa [houtputs, hstages.width_eq] at htotals

theorem compile_requirements_unique (hg : g.Reachable) (h : Runs (g.compile o) c (.ok cg) c')
    (hv : cg.graph.hidden = []) (h' : Runs (g.compile o) c₁ (.ok cg') c₁')
    (hv' : cg'.graph.hidden = []) : cg.requirements = cg'.requirements := by
  obtain ⟨first, hstages⟩ := compile_ok h
  have hvisible : g.hidden = [] := by
    rw [hstages.graph] at hv
    exact (path_lower g first ⟨o.scheme, o.scaleBits⟩ c).hidden_eq_nil hv
  obtain ⟨rank, hrank⟩ := hg.sound.exists_rank hvisible hstages.typed
  obtain ⟨v, hs⟩ := hg.sound.exists_solves (costs g.width) o.scaleBits hvisible hrank
  exact (totals_of_compile hg h hv hs).unique (totals_of_compile hg h' hv' hs)

/-- A graph is valid, and the scheme has a form for every node. -/
def Accepts (o : CompileOptions) (g : Graph) : Prop :=
  g.validate = [] ∧ ∀ types, g.inferTypes = .ok types →
    ∀ n ∈ g.nodes, ¬ o.scheme.Refuses n.op (g.classes types n.id)

theorem compile_isOk_iff {r : Except CompileError CompiledGraph} (hg : g.Drawn c)
    (hroom : c.peek g.space + g.added o c < NodeId.bound) (h : Runs (g.compile o) c r c') :
    (∃ cg, r = .ok cg) ↔ Accepts o g := by
  have hlow := (continues_lowering hg hroom).drawn.listed.visible
  rcases compile_cases hg.reachable (fun _ => hlow) h with
    ⟨hfaults, rfl⟩ | ⟨hvalid, _, types, -, htypes, ⟨hok, hall⟩ | ⟨n, hn, rfl⟩⟩
  · exact iff_of_false nofun fun haccepts => hfaults haccepts.1
  · refine iff_of_true hok ⟨hvalid, fun types' htypes' => ?_⟩
    cases htypes.symm.trans htypes'
    exact hall
  · exact iff_of_false nofun fun haccepts => haccepts.2 types htypes n hn.mem hn.refused

end Graph

namespace Group

variable {gr gr' : Group} {graphs graphs' : List Graph} {o : CompileOptions}
  {c c' c₁ c₁' : IdCounters} {space : IdSpace} {compiled compiled' : List CompiledGraph}
  {r r' : Except CompileError CompiledGroup}

theorem foldlM_compile_isOk_iff (hgraphs : ∀ g ∈ graphs, g.space = space ∧ g.Drawn c)
    (hroom : c.peek space + addedInTurn o graphs c < NodeId.bound) {acc : CompiledGroup}
    (h : Runs (graphs.foldlM (fun (acc : CompiledGroup) g => do
      return acc.add g.name (← g.compile o)) acc) c r c₁) :
    (∃ co, r = .ok co) ↔ ∀ g ∈ graphs, Graph.Accepts o g := by
  induction graphs generalizing acc c with
  | nil => exact iff_of_true ⟨acc, (runs_pure.mp h).1⟩ nofun
  | cons g graphs ih =>
    obtain ⟨⟨hspace, hg⟩, hgraphs⟩ := List.forall_mem_cons.mp hgraphs
    have hown := room_of_addedInTurn hspace hroom
    rw [List.foldlM_cons] at h
    rcases runs_bind h with ⟨e, hfirst, rfl⟩ | ⟨_, c₂, hfirst, hrest⟩
    · rcases runs_bind_error.mp hfirst with he | ⟨_, _, -, hpure⟩
      · refine iff_of_false nofun fun hall => ?_
        obtain ⟨_, hok⟩ := (Graph.compile_isOk_iff hg hown he).mpr (hall g List.mem_cons_self)
        cases hok
      · cases (runs_pure.mp hpure).1
    · obtain ⟨m, _, hm, hadd⟩ := runs_bind_ok.mp hfirst
      obtain ⟨-, rfl⟩ := runs_pure.mp hadd
      have haccepts := (Graph.compile_isOk_iff hg hown hm).mp ⟨m, rfl⟩
      obtain ⟨hemerges, hroom⟩ := emerges_of_room hm hspace hg hroom
      rw [List.forall_mem_cons, and_iff_right haccepts]
      exact ih (fun k hk => (hgraphs k hk).imp_right fun hk => hk.later hemerges.later) hroom hrest

theorem compile_isOk_iff (hgraphs : ∀ g ∈ gr.graphs, g.space = gr.space ∧ g.Drawn c)
    (hroom : c.peek gr.space + gr.added o c < NodeId.bound) (h : Runs (gr.compile o) c r c₁) :
    (∃ co, r = .ok co) ↔
      (gr.graphs.flatMap (·.inputs.keys)).Nodup ∧ ∀ g ∈ gr.graphs, Graph.Accepts o g := by
  unfold compile at h
  rw [← checkInputs_iff]
  cases hcheck : gr.checkInputs with
  | ok u =>
    rw [runs_bind_of_ok (Graph.runs_compilingOfGraph.mpr ⟨hcheck, rfl⟩)] at h
    rw [foldlM_compile_isOk_iff hgraphs hroom h, and_iff_right rfl]
  | error e =>
    rw [hcheck] at h
    rcases runs_bind h with ⟨_, -, rfl⟩ | ⟨_, _, hok, -⟩
    · exact iff_of_false nofun fun hall => nomatch hall.1
    · cases (Graph.runs_compilingOfGraph.mp hok).1

theorem InTurn.requirements_subset (h : InTurn o graphs c compiled c₁)
    (hgraphs : ∀ g ∈ graphs, g.space = space ∧ g.Drawn c)
    (hroom : c.peek space + addedInTurn o graphs c < NodeId.bound)
    (h' : InTurn o graphs' c' compiled' c₁') (hsub : graphs ⊆ graphs')
    (hgraphs' : ∀ g ∈ graphs', g.space = space ∧ g.Drawn c')
    (hroom' : c'.peek space + addedInTurn o graphs' c' < NodeId.bound) :
    compiled.map (·.requirements) ⊆ compiled'.map (·.requirements) := by
  intro q hq
  obtain ⟨m, hm, rfl⟩ := List.mem_map.mp hq
  obtain ⟨g, hg, _, _, -, -, hrun, hemerges⟩ :=
    exists_mem_of_forall₂ (h.emerges hgraphs hroom).2 m hm
  obtain ⟨m', hm', _, _, -, -, hrun', hemerges'⟩ :=
    exists_mem_of_forall₂ (h'.emerges hgraphs' hroom').2.flip g (hsub hg)
  refine List.mem_map.mpr ⟨m', hm', ?_⟩
  exact Graph.compile_requirements_unique (hgraphs g hg).2.reachable hrun'
    hemerges'.drawn.listed.visible hrun hemerges.drawn.listed.visible

theorem InTurn.requirements_foldl_add (h : InTurn o graphs c compiled c₁) (acc : CompiledGroup) :
    ((graphs.zip compiled).foldl (fun acc p => acc.add p.1.name p.2) acc).requirements =
      (compiled.map (·.requirements)).foldl union acc.requirements := by
  induction h generalizing acc with
  | nil => rfl
  | cons _ _ ih => exact ih _

/-- Groups of the same members ask for the same keys, or cannot be compiled, whatever the order and
whenever they are compiled. -/
theorem compile_requirements_perm (hgraphs : ∀ g ∈ gr.graphs, g.space = gr.space ∧ g.Drawn c)
    (hroom : c.peek gr.space + gr.added o c < NodeId.bound) (h : Runs (gr.compile o) c r c₁)
    (hspace : gr'.space = gr.space) (hperm : gr'.graphs.Perm gr.graphs)
    (hgraphs' : ∀ g ∈ gr'.graphs, g.space = gr'.space ∧ g.Drawn c')
    (hroom' : c'.peek gr'.space + gr'.added o c' < NodeId.bound)
    (h' : Runs (gr'.compile o) c' r' c₁') {co : CompiledGroup} (hr : r = .ok co) :
    ∃ co', r' = .ok co' ∧ co'.requirements = co.requirements := by
  obtain ⟨hinputs, haccepts⟩ := (compile_isOk_iff hgraphs hroom h).mp ⟨co, hr⟩
  obtain ⟨co', rfl⟩ := (compile_isOk_iff hgraphs' hroom' h').mpr
    ⟨(hperm.flatMap_right _).nodup_iff.mpr hinputs, fun g hg => haccepts g (hperm.mem_iff.mp hg)⟩
  subst hr
  obtain ⟨-, compiled, hturn, rfl⟩ := runs_compile_iff.mp h
  obtain ⟨-, compiled', hturn', rfl⟩ := runs_compile_iff.mp h'
  refine ⟨_, rfl, ?_⟩
  rw [hturn.requirements_foldl_add, hturn'.requirements_foldl_add]
  rw [hspace] at hgraphs' hroom'
  have hsub := hturn'.requirements_subset hgraphs' hroom' hturn hperm.subset hgraphs hroom
  have hsub' := hturn.requirements_subset hgraphs hroom hturn' hperm.symm.subset hgraphs' hroom'
  exact pooled_congr fun q => ⟨@hsub q, @hsub' q⟩

end Group

namespace Graph

/-- The analysis finds the largest number of encrypted products and quotients on any path, the
steps that ciphertexts are turned by, and whether ciphertexts are multiplied with each other.
Unions of what it finds are least upper bounds: a group asks for the least that covers each of its
members, in whatever order they are compiled. -/
theorem requirements_exact_and_least :
    (∀ g : Graph, g.Reachable → g.width ≤ 2 ^ 31 →
      (g.hidden = [] → g.Acyclic → ∃ t, g.inferTypes = .ok t) ∧
      ∀ t, g.inferTypes = .ok t → ∃ r, g.requirements t = .ok r ∧ r.Ascends ∧
        (g.hidden = [] → IsGreatest
          {n | ∃ id path, g.OperandPath id path ∧ path.countP (g.spends t) = n} r.depth) ∧
        (∀ step, step ∈ r.rotationSteps ↔ step ≠ 0 ∧ ∃ id, t.find? id = some .cipher ∧
          ∃ steps : Nat,
            ⟨id, .rotateLeft steps⟩ ∈ g.nodes ∧ step = ((steps % g.width : Nat) : Int) ∨
              ⟨id, .rotateRight steps⟩ ∈ g.nodes ∧ step = -((steps % g.width : Nat) : Int)) ∧
        (r.relinearize = true ↔ ∃ id lhs rhs, ⟨id, .arithmetic .mul⟩ ∈ g.nodes ∧
          g.operands id = [lhs, rhs] ∧ t.find? lhs = some .cipher ∧ t.find? rhs = some .cipher) ∧
        r.width = g.width) ∧
    (∀ a b c : KeyRequirements, a.Ascends → b.Ascends → c.Ascends →
      (a.union b).Ascends ∧ a.union b = b.union a ∧
        (a.union b).union c = a.union (b.union c) ∧ a.union a = a ∧
        a.union none = a ∧ none.union a = a) ∧
    (∀ gr : Group, gr.Reachable → ∀ o c co c', Runs (gr.compile o) c (.ok co) c' →
      co.members.keys = gr.graphs.map (·.name) ∧
        (∀ m ∈ co.members.values, co.requirements.Covers m.requirements) ∧
        ∀ q : KeyRequirements, (∀ m ∈ co.members.values, q.Covers m.requirements) →
          q.Covers co.requirements) ∧
    ∀ past adopted gr c, Group.Course past adopted gr c →
      ∀ (o : CompileOptions) (gr' : Group) (c' : IdCounters), gr'.space = gr.space →
        gr'.graphs.Perm gr.graphs → c.Later c' →
        c.peek gr.space + gr.added o c < NodeId.bound →
        c'.peek gr'.space + gr'.added o c' < NodeId.bound →
        ∀ r r' c₁ c₁', Runs (gr.compile o) c r c₁ → Runs (gr'.compile o) c' r' c₁' →
          ∀ q, (∃ co, r = .ok co ∧ co.requirements = q) ↔
            ∃ co, r' = .ok co ∧ co.requirements = q := by
  refine ⟨fun g hg hwidth => ⟨fun hv hacyclic => ?_, fun t ht => ?_⟩, fun a b c ha hb hc => ?_,
    fun gr hgr o c co c' h => ?_,
    fun past adopted gr c hcourse o gr' c' hspace hperm hlater hroom hroom' => ?_⟩
  · exact (hg.sound.inferTypes_iff_acyclic hv).mpr hacyclic
  · obtain ⟨r, hr⟩ := requirements_ok hg.sound ht
    refine ⟨r, hr, requirements_ascends hr, fun hv => requirements_depth hg.sound hv hr,
      fun step => ?_, ?_, requirements_width hr⟩
    · rw [requirements_rotationSteps hg.sound hr]
      simp only [rotates_iff hg.width_pos hwidth, exists_and_left]
    · rw [requirements_relinearize hg.sound ht hr]
      simp only [combines_iff_operands hg.sound, exists_and_left]
  · exact ⟨ha.union b, union_comm ha hb, union_assoc ha b c, union_self ha, union_none a,
      none_union ha⟩
  · obtain ⟨-, compiled, -, hnames, rfl, -, hpool⟩ := Group.compile_ok hgr.sound h
    have hcovers (q : KeyRequirements) : q.Covers co.requirements ↔
        ∀ m ∈ co.members.values, q.Covers m.requirements := by
      rw [hpool]
      exact covers_pooled_iff.trans List.forall_mem_map
    exact ⟨hnames, (hcovers _).mp (.refl _), fun q => (hcovers q).mpr⟩
  · intro r r' c₁ c₁' h h' q
    have hgraphs := hcourse.drawn
    have hgraphs' : ∀ g ∈ gr'.graphs, g.space = gr'.space ∧ g.Drawn c' := fun g hg => by
      obtain ⟨hown, hdrawn⟩ := hgraphs g (hperm.mem_iff.mp hg)
      exact ⟨hown.trans hspace.symm, hdrawn.later hlater⟩
    constructor
    · rintro ⟨co, hr, rfl⟩
      exact Group.compile_requirements_perm hgraphs hroom h hspace hperm hgraphs' hroom' h' hr
    · rintro ⟨co, hr, rfl⟩
      exact Group.compile_requirements_perm hgraphs' hroom' h' hspace.symm hperm.symm hgraphs
        hroom h hr

def turnedProduct : Graph :=
  { Graph.blank "t" 4 ⟨0⟩ with
    nodes :=
      [⟨0, .input "x" .cipher⟩, ⟨1, .rotateRight 5⟩, ⟨2, .arithmetic .mul⟩, ⟨3, .output "z"⟩]
    edges := [⟨⟨2, 0⟩, ⟨3, 0⟩, 0⟩, ⟨⟨1, 0⟩, ⟨2, 0⟩, 1⟩, ⟨⟨0, 0⟩, ⟨2, 0⟩, 0⟩, ⟨⟨0, 0⟩, ⟨1, 0⟩, 0⟩]
    inputs := ⟨[("x", 0)]⟩
    outputs := ⟨[("z", 3)]⟩ }

theorem assembled_turnedProduct : turnedProduct.Assembled := by
  have hcreate : Graph.create "t" 4 ⟨0⟩ = .ok (.blank "t" 4 ⟨0⟩) := rfl
  have h₁ := (Graph.Assembled.create hcreate).extend ⟨[0]⟩ (.input "x" .cipher) [] rfl (by simp) rfl
  have h₂ := h₁.extend ⟨[1]⟩ (.rotateRight 5) [0] rfl (by decide) trivial
  have h₃ := h₂.extend ⟨[2]⟩ (.arithmetic .mul) [0, 1] rfl (by decide) trivial
  exact h₃.extend ⟨[3]⟩ (.output "z") [2] rfl (by decide) rfl

/-- The turn of five slots is one to the right, and two graphs in the other order ask for the same
keys. -/
theorem requirements_exact_and_least_turnedProduct :
    (∃ t r, turnedProduct.inferTypes = .ok t ∧ turnedProduct.requirements t = .ok r ∧
      IsGreatest {n | ∃ id path, turnedProduct.OperandPath id path ∧
        path.countP (turnedProduct.spends t) = n} r.depth ∧
      -1 ∈ r.rotationSteps ∧ r.relinearize = true) ∧
    (KeyRequirements.mk [-1] 1 true 4).union ⟨[-1, 2], 0, false, 8⟩ =
      (KeyRequirements.mk [-1, 2] 0 false 8).union ⟨[-1], 1, true, 4⟩ ∧
    ∃ co co' c c', Runs ((pair 2).compile (.ofScheme .bitwise)) ⟨[6]⟩ (.ok co) c ∧
      Runs ((turned 2).compile (.ofScheme .bitwise)) ⟨[6]⟩ (.ok co') c' ∧
      co'.requirements = co.requirements := by
  have htypes : turnedProduct.inferTypes =
      .ok ⟨[(0, .cipher), (1, .cipher), (2, .cipher), (3, .cipher)]⟩ := by cbv
  obtain ⟨hanalysis, hunion, -, hgroup⟩ := requirements_exact_and_least
  obtain ⟨past, adopted, hcourse⟩ := course_pair 2
  refine ⟨?_, ?_, ?_⟩
  · obtain ⟨-, hfound⟩ := hanalysis turnedProduct assembled_turnedProduct.reachable (by decide)
    obtain ⟨r, hr, -, hdepth, hsteps, hrelinearize, -⟩ := hfound _ htypes
    refine ⟨_, r, htypes, hr, hdepth rfl, (hsteps (-1)).mpr ?_, hrelinearize.mpr ?_⟩
    · exact ⟨by decide, 1, rfl, 5, .inr ⟨by simp [turnedProduct], rfl⟩⟩
    · exact ⟨2, 0, 1, by simp [turnedProduct], by cbv, rfl, rfl⟩
  · exact (hunion _ _ .none (by decide) (by decide) ascends_none).2.1
  · have hperm : (turned 2).graphs.Perm (pair 2).graphs := .swap ..
    have hmembers (g : Graph) (hg : g ∈ (pair 2).graphs) : g.Reachable :=
      (hcourse.drawn g hg).2.reachable
    have hroom := Group.room_of_length (o := .ofScheme .bitwise) (c := ⟨[6]⟩) hmembers (by decide)
    have hroom' := Group.room_of_length (o := .ofScheme .bitwise) (c := ⟨[6]⟩)
      (fun g hg => hmembers g (hperm.mem_iff.mp hg)) (by decide)
    obtain ⟨r, c, h⟩ := runs_exists ((pair 2).compile (.ofScheme .bitwise)) ⟨[6]⟩
    obtain ⟨r', c', h'⟩ := runs_exists ((turned 2).compile (.ofScheme .bitwise)) ⟨[6]⟩
    have hfound : (((pair 2).compile (.ofScheme .bitwise)).run.run ⟨[6]⟩).1.isOk = true := by cbv
    rw [show ((pair 2).compile (.ofScheme .bitwise)).run.run ⟨[6]⟩ = (r, c) from h] at hfound
    obtain ⟨co, rfl⟩ : ∃ co, r = .ok co := by
      cases r with
      | ok co => exact ⟨co, rfl⟩
      | error => cases hfound
    obtain ⟨co', rfl, hsame⟩ := (hgroup past adopted (pair 2) _ hcourse (.ofScheme .bitwise)
      (turned 2) _ rfl hperm (.refl _) hroom hroom' _ _ _ _ h h' _).mp ⟨co, rfl, rfl⟩
    exact ⟨co, co', c, c', h, h', hsame⟩

/-- The ids have come round: `0` and `1` were other nodes, and the encoding `0` reads the product
that `1` was. By its id it reads the product that `1` is now, which the analysis comes to later. -/
def overtakenProduct : Graph :=
  { Graph.blank "a" 1 ⟨0⟩ with
    nodes :=
      [⟨0, .encode 30 0⟩, ⟨1, .arithmetic .mul⟩, ⟨2, .arithmetic .mul⟩, ⟨3, .output "z"⟩,
        ⟨5, .input "x" .cipher⟩]
    hidden := [1, 0]
    edges :=
      [⟨⟨2, 0⟩, ⟨3, 0⟩, 0⟩, ⟨⟨0, 1⟩, ⟨2, 0⟩, 1⟩, ⟨⟨5, 0⟩, ⟨2, 0⟩, 0⟩, ⟨⟨5, 0⟩, ⟨1, 1⟩, 1⟩,
        ⟨⟨5, 0⟩, ⟨1, 1⟩, 0⟩, ⟨⟨1, 0⟩, ⟨0, 1⟩, 0⟩, ⟨⟨5, 0⟩, ⟨1, 0⟩, 1⟩, ⟨⟨5, 0⟩, ⟨1, 0⟩, 0⟩,
        ⟨⟨5, 0⟩, ⟨0, 0⟩, 0⟩]
    inputs := ⟨[("x", 5)]⟩
    outputs := ⟨[("z", 3)]⟩ }

theorem assembled_overtakenProduct : overtakenProduct.Assembled := by
  have hcreate : Graph.create "a" 1 ⟨0⟩ = .ok (.blank "a" 1 ⟨0⟩) := rfl
  have h₁ := (Graph.Assembled.create hcreate).extend ⟨[5]⟩ (.input "x" .cipher) [] rfl (by simp) rfl
  have h₂ := h₁.extend ⟨[0]⟩ .negate [5] rfl (by decide) trivial
  have h₃ := h₂.extend ⟨[1]⟩ (.arithmetic .mul) [5, 5] rfl (by decide) trivial
  have h₄ := h₃.extend ⟨[0]⟩ (.encode 30 0) [1] rfl (by decide) trivial
  have h₅ := h₄.extend ⟨[1]⟩ (.arithmetic .mul) [5, 5] rfl (by decide) trivial
  have h₆ := h₅.extend ⟨[2]⟩ (.arithmetic .mul) [5, 0] rfl (by decide) trivial
  exact h₆.extend ⟨[3]⟩ (.output "z") [2] rfl (by decide) rfl

theorem acyclic_overtakenProduct : overtakenProduct.Acyclic := by
  refine acyclic_of_rank (fun p =>
    if p.id = 5 then 0 else if p = ⟨1, 0⟩ then 1 else p.id + 2) fun p q h => ?_
  obtain ⟨e, he, rfl, rfl⟩ := h
  revert e
  decide

/-- The path through both products is longer than what the analysis finds. -/
theorem requirements_overtakenProduct :
    ¬ ∀ (g : Graph) (t : Typing) (r : KeyRequirements), g.Reachable → g.width ≤ 2 ^ 31 →
      g.Acyclic → g.inferTypes = .ok t → g.requirements t = .ok r →
        IsGreatest {n | ∃ id path, g.OperandPath id path ∧ path.countP (g.spends t) = n}
          r.depth := by
  intro hall
  have htypes : overtakenProduct.inferTypes =
      .ok ⟨[(5, .cipher), (0, .plain), (1, .cipher), (2, .cipher), (3, .cipher)]⟩ := by cbv
  have hfound : overtakenProduct.requirements
      ⟨[(5, .cipher), (0, .plain), (1, .cipher), (2, .cipher), (3, .cipher)]⟩ =
        .ok ⟨[], 1, true, 1⟩ := by cbv
  obtain ⟨-, hgreatest⟩ := hall _ _ _ assembled_overtakenProduct.reachable (by decide)
    acyclic_overtakenProduct htypes hfound
  have hsecond : overtakenProduct.operands 2 = [5, 0] := by cbv
  have hencode : overtakenProduct.operands 0 = [1] := by with_unfolding_all rfl
  have hpath : overtakenProduct.OperandPath 2 [2, 0, 1] :=
    .cons (by simp [hsecond]) (.cons (by simp [hencode]) (.single 1))
  have hle := hgreatest ⟨2, [2, 0, 1], hpath, rfl⟩
  revert hle
  decide

end Graph

end CipherGraph

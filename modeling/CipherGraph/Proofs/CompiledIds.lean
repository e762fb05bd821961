import CipherGraph.Proofs.Integrity
import Mathlib.Order.Nat

/-! # Ids of compiled graphs

The graphs of a group are compiled one after the other, each on a clone that draws from the group's
counter. As long as the counter does not turn around, a compiled graph has nodes of the original
under their own ids, and nodes with ids that the counter has handed out meanwhile.
-/

namespace CipherGraph

open IdCounters (Later)

namespace Lower

variable {s s₁ s' : LoweringState}

/-- A later state of a lowering that has handed out no id twice. -/
structure Continues (s s' : LoweringState) : Prop where
  drawn : s'.graph.Drawn s'.counters
  space : s'.graph.space = s.graph.space
  later : Later s.counters s'.counters
  kept : ∀ n ∈ s.graph.nodes, n ∈ s'.graph.nodes
  nodes : ∀ n ∈ s'.graph.nodes, n ∈ s.graph.nodes ∨ s.counters.peek s.graph.space ≤ n.id
  count : s.graph.nodeCount ≤ s'.graph.nodeCount
  spent : s'.counters.peek s.graph.space ≤
    s.counters.peek s.graph.space + (s'.graph.nodeCount - s.graph.nodeCount)

theorem Continues.refl (hs : s.graph.Drawn s.counters) : Continues s s :=
  ⟨hs, rfl, .refl _, fun _ hn => hn, fun _ hn => .inl hn, Nat.le_refl _, Nat.le_add_right _ _⟩

theorem Continues.trans (h : Continues s s₁) (h' : Continues s₁ s') : Continues s s' where
  drawn := h'.drawn
  space := h'.space.trans h.space
  later := h.later.trans h'.later
  kept n hn := h'.kept n (h.kept n hn)
  nodes n hn := by
    rcases h'.nodes n hn with hn | hle
    · exact h.nodes n hn
    · rw [h.space] at hle
      exact .inr ((h.later.peek _).trans hle)
  count := h.count.trans h'.count
  spent := by
    have hspent := h.spent
    have hspent' := h'.spent
    have hcount := h.count
    have hcount' := h'.count
    rw [h.space] at hspent'
    unfold NodeId at *
    omega

theorem Change.continues (h : Change s s') (hs : s.graph.Drawn s.counters)
    (hroom : s.counters.peek s.graph.space + (s'.graph.nodeCount - s.graph.nodeCount) <
      NodeId.bound) : Continues s s' := by
  cases h with
  | @emitted op operands id graph counters type hop h =>
    have hunder := hs.under
    have hsound := hs.reachable.sound
    obtain ⟨-, -, -, hid, hcounters, hgraph⟩ := Graph.makeNode_ok.mp h
    rw [Graph.declare_of_isOriginal hop] at hgraph
    have hfresh : id ∉ s.graph.ids := fun hmem => Nat.lt_irrefl _ (hid ▸ hunder.ids _ hmem)
    have hcount := Graph.nodeCount_grow ⟨id, op⟩ operands hfresh
    rw [← hgraph] at hcount
    dsimp only at hroom
    have hnext : s.counters.peek s.graph.space + 1 < NodeId.bound := by
      unfold NodeId at *
      omega
    have hedit := Graph.Edit.makeNode hnext h
    refine ⟨.edited hs hedit, ?_, hedit.later, fun n hn => ?_, fun n hn => ?_, ?_, ?_⟩
    · dsimp only
      rw [hgraph, Graph.grow_space]
    · dsimp only
      rw [hgraph]
      exact Graph.mem_nodes_grow_of_mem hsound hfresh hn
    · dsimp only at hn
      rw [hgraph, Graph.grow_nodes, Graph.mem_placeNode hsound.ascending] at hn
      rcases hn with rfl | ⟨hn, -⟩
      · exact .inr (Nat.le_of_eq hid.symm)
      · exact .inl hn
    · dsimp only
      omega
    · dsimp only
      rw [hcounters, hid, IdCounters.peek_set hunder.space, IdCounters.next_of_lt hnext, hcount]
      unfold NodeId at *
      omega
  | reported =>
    exact ⟨hs, rfl, .refl _, fun _ hn => hn, fun _ hn => .inl hn, Nat.le_refl _,
      Nat.le_add_right _ _⟩
  | @replaced old new n graph h =>
    have hedit := Graph.Edit.replaceUses (g := s.graph) (c := s.counters) old new
    rw [h] at hedit
    have hdrawn := Graph.Drawn.edited hs hedit
    obtain ⟨_, rfl⟩ := Graph.replaceUses_frame h
    exact ⟨hdrawn, rfl, .refl _, fun _ hn => hn, fun _ hn => .inl hn, Nat.le_refl _,
      Nat.le_add_right _ _⟩

theorem Path.continues (h : Path s s') (hs : s.graph.Drawn s.counters)
    (hroom : s.counters.peek s.graph.space + (s'.graph.nodeCount - s.graph.nodeCount) <
      NodeId.bound) : Continues s s' := by
  induction h using Relation.ReflTransGen.head_induction_on with
  | refl => exact .refl hs
  | @head s s₁ hc hp ih =>
    have hle := Path.nodeCount_le hp
    have hfirst := hc.continues hs (Nat.lt_of_le_of_lt
      (Nat.add_le_add_left (Nat.sub_le_sub_right hle _) _) hroom)
    refine hfirst.trans (ih hfirst.drawn ?_)
    have hspent := hfirst.spent
    have hcount := hfirst.count
    rw [hfirst.space]
    unfold NodeId at *
    omega

end Lower

namespace Graph

variable {g : Graph} {o : CompileOptions} {c c' : IdCounters} {cg : CompiledGraph}

/-- What the lowering of a graph leaves behind. -/
def lowering (g : Graph) (o : CompileOptions) (c : IdCounters) : LoweringState :=
  match g.inferTypes with
  | .ok types => (g.lower types ⟨o.scheme, o.scaleBits⟩ c).2
  | .error _ => g.loweringStart ∅ c

/-- The number of nodes that compiling a graph adds, those that turn out dead included. -/
def added (g : Graph) (o : CompileOptions) (c : IdCounters) : Nat :=
  (g.lowering o c).graph.nodeCount - g.nodeCount

theorem lowering_eq {types : Typing} (h : g.inferTypes = .ok types) :
    g.lowering o c = (g.lower types ⟨o.scheme, o.scaleBits⟩ c).2 := by
  rw [lowering, h]

theorem continues_lowering (hg : g.Drawn c)
    (hroom : c.peek g.space + g.added o c < NodeId.bound) :
    Lower.Continues (g.loweringStart ∅ c) (g.lowering o c) := by
  unfold added lowering at *
  cases ht : g.inferTypes with
  | ok types =>
    rw [ht] at hroom
    have h := (path_lower g types _ c).continues hg hroom
    exact ⟨h.drawn, h.space, h.later, h.kept, h.nodes, h.count, h.spent⟩
  | error e => exact .refl hg

theorem peek_lowering_le (hg : g.Drawn c)
    (hroom : c.peek g.space + g.added o c < NodeId.bound) :
    (g.lowering o c).counters.peek g.space ≤ c.peek g.space + g.added o c :=
  (continues_lowering hg hroom).spent

/-- A compilation draws ids while it lowers and at no other time. -/
theorem compile_counters (h : Runs (g.compile o) c (.ok cg) c') :
    c' = (g.lowering o c).counters := by
  unfold compile at h
  split at h
  · obtain ⟨first, c₁, h₁, hrest⟩ := runs_bind_ok.mp h
    obtain ⟨⟨graph, report⟩, c₂, h₂, hrest⟩ := runs_bind_ok.mp hrest
    obtain ⟨types, c₃, h₃, hrest⟩ := runs_bind_ok.mp hrest
    obtain ⟨requirements, c₄, h₄, hrest⟩ := runs_bind_ok.mp hrest
    obtain ⟨signature, c₅, h₅, hend⟩ := runs_bind_ok.mp hrest
    obtain ⟨hfirst, hc₁⟩ := runs_compilingOfGraph.mp h₁
    rw [(runs_pure.mp hend).2, (runs_compilingOfGraph.mp h₅).2, (runs_compilingOfGraph.mp h₄).2,
      (runs_compilingOfGraph.mp h₃).2, lowering_eq hfirst, (runs_lowered_iff.mp h₂).2, hc₁]
  · cases (runs_throw.mp h).1

theorem compile_graph (h : Runs (g.compile o) c (.ok cg) c') :
    cg.graph = (g.lowering o c).graph.removeDead.2 := by
  obtain ⟨first, hstages⟩ := compile_ok h
  rw [hstages.graph, lowering_eq hstages.typed]

theorem Edit.name_eq {g' : Graph} (h : g.Edit c (.ok g') c') : g'.name = g.name := by
  obtain ⟨_, _, _, -, h⟩ | ⟨_, _, _, h⟩ | rfl := h.ok
  · obtain ⟨-, -, -, -, -, rfl⟩ := makeNode_ok.mp h
    simp
  · obtain ⟨_, rfl⟩ := replaceUses_frame h
    rfl
  · rfl

/-- What compiling a graph makes of its nodes and of the counters. -/
structure Emerges (g : Graph) (c : IdCounters) (g' : Graph) (c' : IdCounters) : Prop where
  drawn : g'.Drawn c'
  space : g'.space = g.space
  later : Later c c'
  nodes : ∀ n ∈ g'.nodes, n ∈ g.nodes ∨ c.peek g.space ≤ n.id
  /-- Lowering drops no node, so those that go are dead. -/
  kept : ∃ lowered : Graph, g' = lowered.removeDead.2 ∧ ∀ n ∈ g.nodes, n ∈ lowered.nodes

theorem emerges_of_compile (h : Runs (g.compile o) c (.ok cg) c') (hg : g.Drawn c)
    (hroom : c.peek g.space + g.added o c < NodeId.bound) : g.Emerges c cg.graph c' := by
  obtain ⟨hdrawn, hspace, hlater, hkept, hnodes, -, -⟩ := continues_lowering hg hroom
  rw [compile_graph h, compile_counters h]
  exact ⟨.edited hdrawn .removeDead, hspace, hlater,
    fun n hn => hnodes n (mem_nodes_removeDead.mp hn).1, _, rfl, hkept⟩

end Graph

namespace Group

variable {gr : Group} {o : CompileOptions} {c c₁ c' : IdCounters} {space : IdSpace}
  {graphs : List Graph} {compiled : List CompiledGraph} {cg : CompiledGroup}

theorem Course.sound {past : List Group} {adopted : List (Group × Graph)}
    (h : Course past adopted gr c) : gr.Sound := by
  induction h with
  | create => exact ⟨List.nodup_nil, nofun⟩
  | @step _ _ gr _ _ r _ hs ih =>
    cases r with
    | error e => exact ih
    | ok gr' =>
      obtain rfl | ⟨name, g', rfl, ⟨width, hnew⟩ | ⟨g, hg, hedit⟩⟩ := hs.ok
      · exact ih
      · refine ih.insert ?_ (.create hnew)
        obtain ⟨-, rfl⟩ := Graph.create_ok.mp hnew
        rfl
      · obtain ⟨hname, hreachable⟩ := ih.members _ (OrderedMap.mem_of_lookup hg)
        exact ih.insert (hedit.name_eq.trans hname) (hedit.reachable hreachable)
  | adopt _ hg hadd ih =>
    obtain ⟨-, -, ⟨-, -, rfl⟩ | ⟨-, -, -, rfl⟩⟩ := addGraph_ok hadd
    · exact ih.insert rfl hg.reachable
    · exact ih.insert rfl (.rebind hg.reachable _)
  | refused _ _ ih => exact ih

theorem Course.drawn {past : List Group} {adopted : List (Group × Graph)}
    (h : Course past adopted gr c) : ∀ g ∈ gr.graphs, g.space = gr.space ∧ g.Drawn c := by
  intro g hg
  obtain ⟨⟨name, _⟩, he, rfl⟩ := List.mem_map.mp hg
  exact h.housed name _ ((OrderedMap.find?_eq_some h.sound.keys).mpr he)

inductive InTurn (o : CompileOptions) :
    List Graph → IdCounters → List CompiledGraph → IdCounters → Prop where
  | nil (c : IdCounters) : InTurn o [] c [] c
  | cons {g : Graph} {graphs : List Graph} {m : CompiledGraph} {compiled : List CompiledGraph}
      {c c₁ c' : IdCounters} (h : Runs (g.compile o) c (.ok m) c₁)
      (hrest : InTurn o graphs c₁ compiled c') : InTurn o (g :: graphs) c (m :: compiled) c'

/-- The number of nodes that compiling some graphs one after the other adds. -/
def addedInTurn (o : CompileOptions) : List Graph → IdCounters → Nat
  | [], _ => 0
  | g :: graphs, c => g.added o c + addedInTurn o graphs (g.lowering o c).counters

def added (gr : Group) (o : CompileOptions) (c : IdCounters) : Nat := addedInTurn o gr.graphs c

theorem runs_foldlM_compile {acc : CompiledGroup} :
    Runs (graphs.foldlM (fun (acc : CompiledGroup) g => do
      return acc.add g.name (← g.compile o)) acc) c (.ok cg) c' ↔
      ∃ compiled, InTurn o graphs c compiled c' ∧
        cg = (graphs.zip compiled).foldl (fun acc p => acc.add p.1.name p.2) acc := by
  induction graphs generalizing acc c with
  | nil =>
    rw [List.foldlM_nil, runs_pure]
    constructor
    · rintro ⟨hcg, rfl⟩
      cases hcg
      exact ⟨[], .nil _, rfl⟩
    · rintro ⟨_, hturn, rfl⟩
      cases hturn
      exact ⟨rfl, rfl⟩
  | cons g graphs ih =>
    rw [List.foldlM_cons, runs_bind_ok]
    constructor
    · rintro ⟨_, c₁, h, hrest⟩
      obtain ⟨m, _, hm, hadd⟩ := runs_bind_ok.mp h
      obtain ⟨hadd, rfl⟩ := runs_pure.mp hadd
      cases hadd
      obtain ⟨compiled, hturn, rfl⟩ := ih.mp hrest
      exact ⟨m :: compiled, .cons hm hturn, rfl⟩
    · rintro ⟨_, hturn, rfl⟩
      cases hturn with
      | @cons _ _ m compiled _ c₁ _ hm hturn =>
        refine ⟨acc.add g.name m, c₁, ?_, ih.mpr ⟨compiled, hturn, rfl⟩⟩
        exact runs_bind_ok.mpr ⟨m, c₁, hm, runs_pure.mpr ⟨rfl, rfl⟩⟩

/-- A group is compiled if its inputs have names apart and every graph is compiled in its turn. -/
theorem runs_compile_iff :
    Runs (gr.compile o) c (.ok cg) c' ↔ gr.checkInputs = .ok () ∧
      ∃ compiled, InTurn o gr.graphs c compiled c' ∧
        cg = (gr.graphs.zip compiled).foldl (fun acc p => acc.add p.1.name p.2)
          ⟨gr.name, o.scheme, ∅, .none⟩ := by
  unfold compile
  rw [runs_bind_ok, ← runs_foldlM_compile]
  constructor
  · rintro ⟨_, c₁, hrun, hrest⟩
    obtain ⟨hcheck, hc₁⟩ := Graph.runs_compilingOfGraph.mp hrun
    exact ⟨hcheck, hc₁ ▸ hrest⟩
  · rintro ⟨hcheck, hrest⟩
    exact ⟨(), c, Graph.runs_compilingOfGraph.mpr ⟨hcheck, rfl⟩, hrest⟩

theorem room_of_addedInTurn {g : Graph} (hspace : g.space = space)
    (hroom : c.peek space + addedInTurn o (g :: graphs) c < NodeId.bound) :
    c.peek g.space + g.added o c < NodeId.bound := by
  rw [hspace]
  exact Nat.lt_of_le_of_lt (Nat.add_le_add_left (Nat.le_add_right _ _) _) hroom

theorem emerges_of_room {g : Graph} {m : CompiledGraph} (h : Runs (g.compile o) c (.ok m) c₁)
    (hspace : g.space = space) (hg : g.Drawn c)
    (hroom : c.peek space + addedInTurn o (g :: graphs) c < NodeId.bound) :
    g.Emerges c m.graph c₁ ∧ c₁.peek space + addedInTurn o graphs c₁ < NodeId.bound := by
  have hown := room_of_addedInTurn hspace hroom
  rw [addedInTurn, ← Graph.compile_counters h] at hroom
  refine ⟨Graph.emerges_of_compile h hg hown, ?_⟩
  have hspent := Graph.peek_lowering_le hg hown
  rw [← Graph.compile_counters h, hspace] at hspent
  unfold NodeId at *
  omega

/-- What each graph makes of itself, with the counters before and after. -/
theorem InTurn.emerges (h : InTurn o graphs c compiled c')
    (hgraphs : ∀ g ∈ graphs, g.space = space ∧ g.Drawn c)
    (hroom : c.peek space + addedInTurn o graphs c < NodeId.bound) :
    Later c c' ∧ List.Forall₂ (fun g m => ∃ c₁ c₂, Later c c₁ ∧ Later c₂ c' ∧
      Runs (g.compile o) c₁ (.ok m) c₂ ∧ g.Emerges c₁ m.graph c₂) graphs compiled := by
  induction h with
  | nil => exact ⟨.refl _, .nil⟩
  | @cons g graphs m compiled c c₁ c' h hrest ih =>
    obtain ⟨⟨hspace, hdrawn⟩, hgraphs⟩ := List.forall_mem_cons.mp hgraphs
    obtain ⟨hemerges, hroom⟩ := emerges_of_room h hspace hdrawn hroom
    obtain ⟨hlater, hall⟩ := ih
      (fun k hk => (hgraphs k hk).imp_right fun hk => hk.later hemerges.later) hroom
    refine ⟨hemerges.later.trans hlater, .cons ⟨c, c₁, .refl _, hlater, h, hemerges⟩ ?_⟩
    refine hall.imp fun k m' => ?_
    rintro ⟨c₂, c₃, hbefore, hafter, hk⟩
    exact ⟨c₂, c₃, hemerges.later.trans hbefore, hafter, hk⟩

end Group

end CipherGraph

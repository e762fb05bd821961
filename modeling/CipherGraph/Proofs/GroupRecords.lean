import CipherGraph.Proofs.Acceptance
import CipherGraph.Proofs.AddedNodes
import CipherGraph.Proofs.CompiledIds

/-! # Records of compiled groups

A group whose members share no id is compiled to graphs that share none either. Their record is
restored to graphs like them, whenever it was taken, and what is restored from any record draws new
ids.
-/

namespace CipherGraph

open IdCounters (Later)

theorem exists_mem_of_forall₂ {α β : Type} {R : α → β → Prop} {l : List α} {l' : List β}
    (h : List.Forall₂ R l l') : ∀ b ∈ l', ∃ a ∈ l, R a b := by
  induction h with
  | nil => nofun
  | cons hab _ ih =>
    refine List.forall_mem_cons.mpr ⟨⟨_, List.mem_cons_self, hab⟩, fun b hb => ?_⟩
    obtain ⟨a, ha, hab⟩ := ih b hb
    exact ⟨a, List.mem_cons_of_mem _ ha, hab⟩

namespace Graph

end Graph

namespace Group

variable {gr : Group} {o : CompileOptions} {c c₁ c' : IdCounters} {space : IdSpace}
  {graphs : List Graph} {compiled : List CompiledGraph} {cg : CompiledGroup}

theorem entries_foldl_add {l : List (Graph × CompiledGraph)} {acc : CompiledGroup}
    (hnames : (acc.members.keys ++ l.map (·.1.name)).Nodup) :
    (l.foldl (fun acc p => acc.add p.1.name p.2) acc).members.entries =
      acc.members.entries ++ l.map fun p => (p.1.name, p.2) := by
  induction l generalizing acc with
  | nil => simp
  | cons p l ih =>
    have hnew : p.1.name ∉ acc.members.keys := fun hmem =>
      (List.nodup_append.mp hnames).2.2 _ hmem _ (by simp) rfl
    have hentries : (acc.add p.1.name p.2).members.entries =
        acc.members.entries ++ [(p.1.name, p.2)] := OrderedMap.entries_insert_of_not_mem hnew
    rw [List.foldl_cons, ih, hentries]
    · simp
    · simpa [OrderedMap.keys, hentries] using hnames

theorem name_foldl_add {l : List (Graph × CompiledGraph)} {acc : CompiledGroup} :
    (l.foldl (fun acc p => acc.add p.1.name p.2) acc).name = acc.name := by
  induction l generalizing acc with
  | nil => rfl
  | cons p l ih => exact ih

theorem InTurn.length_eq (h : InTurn o graphs c compiled c') :
    compiled.length = graphs.length := by
  induction h with
  | nil => rfl
  | cons _ _ ih => rw [List.length_cons, List.length_cons, ih]

theorem inTurn_of_compile (hgr : gr.Sound) (h : Runs (gr.compile o) c (.ok cg) c') :
    InTurn o gr.graphs c cg.members.values c' ∧ cg.name = gr.name := by
  obtain ⟨-, compiled, hturn, rfl⟩ := runs_compile_iff.mp h
  have hlength := hturn.length_eq
  have hnames : ((CompiledGroup.mk gr.name o.scheme ∅ .none).members.keys ++
      (gr.graphs.zip compiled).map (·.1.name)).Nodup := by
    rw [← Function.comp_def Graph.name Prod.fst, ← List.map_map,
      List.map_fst_zip (Nat.le_of_eq hlength.symm)]
    exact hgr.nodup_names
  have hentries := entries_foldl_add hnames
  refine ⟨?_, name_foldl_add⟩
  rw [OrderedMap.values, hentries, List.map_append, List.map_map]
  change InTurn o gr.graphs c (List.map Prod.snd (gr.graphs.zip compiled)) c'
  rwa [List.map_snd_zip (Nat.le_of_eq hlength)]

theorem InTurn.drawn (h : InTurn o graphs c compiled c')
    (hgraphs : ∀ g ∈ graphs, g.space = space ∧ g.Drawn c)
    (hroom : c.peek space + addedInTurn o graphs c < NodeId.bound) :
    ∀ m ∈ compiled, m.graph.space = space ∧ m.graph.Drawn c' := by
  intro m hm
  obtain ⟨g, hg, _, _, -, hlater, -, hemerges⟩ :=
    exists_mem_of_forall₂ (h.emerges hgraphs hroom).2 m hm
  exact ⟨hemerges.space.trans (hgraphs g hg).1, hemerges.drawn.later hlater⟩

def scaled : Graph :=
  { Graph.blank "s" 1 ⟨0⟩ with
    nodes := [⟨3, .input "c" .cipher⟩, ⟨4, .input "p" .plain⟩, ⟨5, .arithmetic .mul⟩,
      ⟨6, .arithmetic .mul⟩, ⟨7, .output "w"⟩]
    edges := [⟨⟨6, 0⟩, ⟨7, 0⟩, 0⟩, ⟨⟨3, 0⟩, ⟨6, 0⟩, 1⟩, ⟨⟨4, 0⟩, ⟨6, 0⟩, 0⟩,
      ⟨⟨3, 0⟩, ⟨5, 0⟩, 1⟩, ⟨⟨4, 0⟩, ⟨5, 0⟩, 0⟩]
    inputs := ⟨[("c", 3), ("p", 4)]⟩
    outputs := ⟨[("w", 7)]⟩ }

end Group

end CipherGraph

import CipherGraph.Compile.SchemeChoice
import CipherGraph.Proofs.AddedNodes
import CipherGraph.Proofs.Refusals

/-! # Fit of the inferred scheme

The scheme inferred for some graphs has a form for each of their operations. It need not hold their
constants: integers that are divided call for bytes, however large they are.
-/

namespace CipherGraph

namespace NumericUsage

variable {u v w : NumericUsage} {kind : SchemeKind} {op : Operation} {α : Type} {l : List α}

/-- Every use in `v` is one in `u`. -/
def Covers (u v : NumericUsage) : Prop := u.union v = u

theorem union_assoc (u v w : NumericUsage) : (u.union v).union w = u.union (v.union w) := by
  simp [union, Bool.or_assoc]

theorem union_comm (u v : NumericUsage) : u.union v = v.union u := by
  simp [union, Bool.or_comm]

theorem union_right_comm (u v w : NumericUsage) :
    (u.union v).union w = (u.union w).union v := by
  rw [union_assoc, union_comm v, ← union_assoc]

theorem union_self (u : NumericUsage) : u.union u = u := by
  simp [union]

theorem Covers.union (h : u.Covers v) (w : NumericUsage) : (u.union w).Covers v := by
  rw [Covers, union_right_comm, h]

theorem Covers.trans (h : u.Covers v) (h' : v.Covers w) : u.Covers w := by
  unfold Covers at *
  rw [← h, union_assoc, h']

theorem Covers.foldl (h : u.Covers v) (f : α → NumericUsage) (l : List α) :
    (l.foldl (fun u a => u.union (f a)) u).Covers v := by
  induction l generalizing u with
  | nil => exact h
  | cons a l ih => exact ih (h.union _)

end NumericUsage

namespace Graph

variable {g : Graph} {o : CompileOptions} {c c' : IdCounters} {kind : SchemeKind}

/-- The scheme has a form for every operation, if it holds the constants. -/
def Suits (g : Graph) (kind : SchemeKind) : Prop :=
  ∀ k ∈ g.nodes, kind.lowers k.op = true ∨ ∃ value, k.op = .constant value

/-- A constant that the scheme does not hold is named. -/
def Blames (g : Graph) (kind : SchemeKind) (e : CompileError) : Prop :=
  ∃ id value, ⟨id, .constant value⟩ ∈ g.nodes ∧ kind.holds value = false ∧
    e = .unsupported id "constant" kind

/-- Graphs are compiled, and the scheme has a form for all their operations, or a constant is to
blame. -/
def Decides {α : Type} (kind : SchemeKind) (graphs : List Graph) (r : Except CompileError α) :
    Prop :=
  (∃ a, r = .ok a) ∧ (∀ g ∈ graphs, ∀ k ∈ g.nodes, kind.lowers k.op = true) ∨
    ∃ e, r = .error e ∧ ∃ g ∈ graphs, g.Blames kind e

theorem decides_compile {r : Except CompileError CompiledGraph} (hg : g.Drawn c)
    (hvalid : g.validate = []) (hsuits : g.Suits o.scheme)
    (hroom : c.peek g.space + g.added o c < NodeId.bound) (h : Runs (g.compile o) c r c') :
    Decides o.scheme [g] r := by
  have hlow := (continues_lowering hg hroom).drawn.listed.visible
  rcases compile_cases hg.reachable (fun _ => hlow) h with
    ⟨hfaults, -⟩ | ⟨-, _, types, -, -, ⟨hok, hall⟩ | ⟨k, hk, rfl⟩⟩
  · exact absurd hvalid hfaults
  · refine .inl ⟨hok, List.forall_mem_singleton.mpr fun k hk => ?_⟩
    rcases hsuits k hk with hlowers | ⟨value, hvalue⟩
    · exact hlowers
    · have haccepted := hall k hk
      rw [hvalue, SchemeKind.refuses_constant_iff, Bool.not_eq_false] at haccepted
      rw [hvalue]
      exact haccepted
  · rcases hsuits k hk.mem with hlowers | ⟨value, hvalue⟩
    · cases hk.refused.lowers_eq_false.symm.trans hlowers
    · have hmem := hk.mem
      have hrefused := hk.refused
      obtain ⟨id, _⟩ := k
      cases hvalue
      exact .inr ⟨_, rfl, g, List.mem_singleton_self g, id, value, hmem,
        SchemeKind.refuses_constant_iff.mp hrefused, rfl⟩

end Graph

namespace Group

variable {gr : Group} {graphs : List Graph} {o : CompileOptions} {c c' : IdCounters}
  {space : IdSpace}

theorem decides_foldlM_compile {r : Except CompileError CompiledGroup}
    (hspace : ∀ g ∈ graphs, g.space = space) (hdrawn : ∀ g ∈ graphs, g.Drawn c)
    (hvalid : ∀ g ∈ graphs, g.validate = []) (hsuits : ∀ g ∈ graphs, g.Suits o.scheme)
    (hroom : c.peek space + addedInTurn o graphs c < NodeId.bound) {acc : CompiledGroup}
    (h : Runs (graphs.foldlM (fun (acc : CompiledGroup) g => do
      return acc.add g.name (← g.compile o)) acc) c r c') : Graph.Decides o.scheme graphs r := by
  induction graphs generalizing acc c with
  | nil => exact .inl ⟨⟨acc, (runs_pure.mp h).1⟩, nofun⟩
  | cons g graphs ih =>
    obtain ⟨hown, hspace⟩ := List.forall_mem_cons.mp hspace
    obtain ⟨hg, hdrawn⟩ := List.forall_mem_cons.mp hdrawn
    obtain ⟨hgvalid, hvalid⟩ := List.forall_mem_cons.mp hvalid
    obtain ⟨hgsuits, hsuits⟩ := List.forall_mem_cons.mp hsuits
    have hgroom := room_of_addedInTurn hown hroom
    have hdecides {r : Except CompileError CompiledGraph} {c₁ : IdCounters}
        (h : Runs (g.compile o) c r c₁) := Graph.decides_compile hg hgvalid hgsuits hgroom h
    rw [List.foldlM_cons] at h
    rcases runs_bind h with ⟨e, hfirst, rfl⟩ | ⟨_, c₁, hfirst, hrest⟩
    · rcases runs_bind_error.mp hfirst with he | ⟨_, _, -, hpure⟩
      · rcases hdecides he with ⟨⟨_, h⟩, -⟩ | ⟨_, h, _, hmem, hblames⟩
        · cases h
        · cases h
          cases List.mem_singleton.mp hmem
          exact .inr ⟨e, rfl, g, List.mem_cons_self, hblames⟩
      · cases (runs_pure.mp hpure).1
    · obtain ⟨m, _, hm, hadd⟩ := runs_bind_ok.mp hfirst
      obtain ⟨-, rfl⟩ := runs_pure.mp hadd
      rcases hdecides hm with ⟨-, hlowers⟩ | ⟨_, h, -⟩
      · obtain ⟨hemerges, hroom⟩ := emerges_of_room hm hown hg hroom
        rcases ih hspace (fun k hk => (hdrawn k hk).later hemerges.later) hvalid hsuits hroom hrest
          with ⟨hok, hall⟩ | ⟨e, he, k, hk, hblames⟩
        · exact .inl ⟨hok, List.forall_mem_cons.mpr ⟨hlowers g (List.mem_singleton_self g), hall⟩⟩
        · exact .inr ⟨e, he, k, List.mem_cons_of_mem _ hk, hblames⟩
      · cases h

theorem decides_compile {r : Except CompileError CompiledGroup}
    (hspace : ∀ g ∈ gr.graphs, g.space = gr.space) (hdrawn : ∀ g ∈ gr.graphs, g.Drawn c)
    (hvalid : ∀ g ∈ gr.graphs, g.validate = []) (hsuits : ∀ g ∈ gr.graphs, g.Suits o.scheme)
    (hinputs : (gr.graphs.flatMap (·.inputs.keys)).Nodup)
    (hroom : c.peek gr.space + gr.added o c < NodeId.bound) (h : Runs (gr.compile o) c r c') :
    Graph.Decides o.scheme gr.graphs r := by
  unfold compile at h
  rw [runs_bind_of_ok (Graph.runs_compilingOfGraph.mpr ⟨checkInputs_iff.mpr hinputs, rfl⟩)] at h
  exact decides_foldlM_compile hspace hdrawn hvalid hsuits hroom h

end Group

namespace Graph

variable {g : Graph} {graphs : List Graph} {u : NumericUsage} {kind : SchemeKind} {id : NodeId}
  {c : IdCounters}

/-- `u` under the name `v`. -/
def forwarded : Graph :=
  { Graph.blank "f" 1 ⟨0⟩ with
    nodes := [⟨4, .input "u" .cipher⟩, ⟨5, .output "v"⟩]
    edges := [⟨⟨4, 0⟩, ⟨5, 0⟩, 0⟩]
    inputs := ⟨[("u", 4)]⟩
    outputs := ⟨[("v", 5)]⟩ }

theorem drawn_forwarded : forwarded.Drawn ⟨[6]⟩ := by
  have hcreate : Graph.create "f" 1 ⟨0⟩ = .ok (.blank "f" 1 ⟨0⟩) := rfl
  have h₀ : Drawn (blank "f" 1 ⟨0⟩) ⟨[4]⟩ := .create hcreate (by decide)
  have h₁ := h₀.extend (by decide) (.input "u" .cipher) [] rfl (by simp) rfl
  exact h₁.extend (by decide) (.output "v") [4] rfl (by decide) rfl

/-- A group of both. -/
def pair (value : Int64) : Group := ⟨"p", ⟨0⟩, ⟨[("q", quotient value), ("f", forwarded)]⟩⟩

/-- The same group in the other order. -/
def turned (value : Int64) : Group := ⟨"p", ⟨0⟩, ⟨[("f", forwarded), ("q", quotient value)]⟩⟩

theorem course_pair (value : Int64) :
    ∃ past adopted, Group.Course past adopted (pair value) ⟨[6]⟩ := by
  have hlater : IdCounters.Later ⟨[4]⟩ ⟨[6]⟩ := IdCounters.later_set (s := ⟨0⟩) (by decide)
  have hfirst : Runs ((Group.create "p" ⟨0⟩).addGraph (quotient value)) ⟨[6]⟩
      (.ok ⟨"p", ⟨0⟩, ⟨[("q", quotient value)]⟩⟩) ⟨[6]⟩ := rfl
  have hsecond : Runs (Group.addGraph ⟨"p", ⟨0⟩, ⟨[("q", quotient value)]⟩⟩ forwarded) ⟨[6]⟩
      (.ok (pair value)) ⟨[6]⟩ := rfl
  have hdrawn : (quotient value).Drawn ⟨[6]⟩ := (drawn_quotient value).later hlater
  exact ⟨_, _, .adopt (.adopt (.create "p" (by decide)) hdrawn hfirst) drawn_forwarded hsecond⟩

end Graph

end CipherGraph

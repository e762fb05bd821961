import CipherGraph.Proofs.Levels
import CipherGraph.Proofs.Rotations
import CipherGraph.Proofs.Rows

/-! # Parameters that fit

Selected parameters have slots for the widest graph in a whole number of parts, and levels for the
deepest one. Rows are another matter: a prescribed degree is not doubled for the sake of rotations,
so that slots may suffice where rows do not.
-/

namespace CipherGraph

open Command Machine

variable {kind : SchemeKind} {r : KeyRequirements} {c : SchemeConfig} {p : Parameters}

namespace Parameters

theorem scheme_of_select (h : select kind r c = .ok p) : p.scheme = kind := by
  cases kind with
  | ckks =>
    obtain ⟨degree, rfl⟩ := selectApproximate_ok (select_ok h).1
    rfl
  | bfv => exact (select_exact h rfl).1
  | bitwise =>
    rw [select_gates h rfl]
    rfl

/-- Valid parameters have a power of two of slots, and not more than the largest degree. -/
theorem slotCount_of_validate_le (h : p.validate = .ok ()) : ∃ k ≤ 15, p.slotCount = 2 ^ k := by
  unfold validate at h
  unfold slotCount
  cases hs : p.scheme with
  | ckks =>
    rw [hs] at h
    obtain ⟨_, hchain, -⟩ := Except.bind_eq_ok.mp h
    obtain ⟨k, hk, hdegree⟩ := degree_of_checkChain hchain
    refine ⟨k, by omega, ?_⟩
    dsimp only
    rw [hdegree, Nat.pow_succ, Nat.mul_div_cancel _ (by omega)]
  | bfv =>
    rw [hs] at h
    obtain ⟨_, hchain, -⟩ := Except.bind_eq_ok.mp h
    obtain ⟨k, hk, hdegree⟩ := degree_of_checkChain hchain
    exact ⟨k + 1, hk, hdegree⟩
  | bitwise => exact ⟨0, Nat.zero_le _, rfl⟩

theorem slotCount_of_validate (h : p.validate = .ok ()) : ∃ k, p.slotCount = 2 ^ k :=
  (slotCount_of_validate_le h).imp fun _ hk => hk.2

/-- Vectors that are no longer than the slots fit into them a whole number of times exactly if their
length is a power of two. -/
theorem dvd_slotCount_iff (h : p.validate = .ok ()) {n : Nat} (hn : n ≤ p.slotCount) :
    n ∣ p.slotCount ↔ ∃ i, n = 2 ^ i := by
  obtain ⟨k, hk⟩ := slotCount_of_validate h
  rw [hk] at hn ⊢
  constructor
  · intro hdvd
    obtain ⟨i, -, hi⟩ := (Nat.dvd_prime_pow Nat.prime_two).mp hdvd
    exact ⟨i, hi⟩
  · rintro ⟨i, rfl⟩
    exact Nat.pow_dvd_pow 2 ((Nat.pow_le_pow_iff_right (by omega)).mp hn)

theorem rowSize_eq (p : Parameters) :
    p.rowSize = if p.scheme = .bfv then p.slotCount / 2 else p.slotCount := by
  unfold rowSize slotCount
  cases p.scheme <;> rfl

/-- Vectors span several rows only in the exact family, if the longest one has as many slots as the
ring has degrees. -/
theorem rowSize_lt_iff (h : select kind r c = .ok p) (hr : ∃ j, r.width = 2 ^ j) {n : Nat}
    (hn : n ≤ r.width) :
    p.rowSize < n ↔ kind = .bfv ∧ p.degree.toNat = r.width ∧ r.width < 2 * n := by
  obtain ⟨-, hvalid, hfits⟩ := select_ok h
  have hscheme := scheme_of_select h
  have hslots : r.width ≤ p.slotCount := (le_max_left ..).trans hfits
  rw [rowSize_eq, hscheme]
  by_cases hkind : kind = .bfv
  · obtain ⟨j, hj⟩ := hr
    obtain ⟨k, hk⟩ := slotCount_of_validate hvalid
    have hdegree : p.slotCount = p.degree.toNat := by
      rw [slotCount, hscheme, hkind]
    rw [if_pos hkind, ← hdegree]
    -- The slots are as many as the width or at least twice as many.
    have hdouble : p.slotCount = r.width ∨ 2 * r.width ≤ p.slotCount := by
      rw [hj, hk] at hslots ⊢
      have hjk : j ≤ k := (Nat.pow_le_pow_iff_right (by omega)).mp hslots
      rcases Nat.eq_or_lt_of_le hjk with rfl | hlt
      · exact .inl rfl
      · refine .inr ?_
        rw [← Nat.pow_succ']
        exact Nat.pow_le_pow_right (by omega) hlt
    have hpos : 0 < p.slotCount := hk ▸ Nat.two_pow_pos k
    simp only [hkind, true_and]
    omega
  · rw [if_neg hkind]
    simp only [hkind, false_and, iff_false, Nat.not_lt]
    exact hn.trans hslots

/-- Where rotations need keys, the longest vectors span several rows only if that is the degree
prescribed to the exact family: one that is not prescribed is doubled. -/
theorem rowSize_lt_width_iff (h : select kind r c = .ok p) (hr : ∃ j, r.width = 2 ^ j)
    (hsteps : r.rotationSteps ≠ []) :
    p.rowSize < r.width ↔
      kind = .bfv ∧ ∃ degree, c.degree = some degree ∧ degree.toNat = r.width := by
  rw [rowSize_lt_iff h hr le_rfl]
  refine and_congr_right ?_
  rintro rfl
  have hpos : 0 < r.width := hr.elim fun j hj => hj ▸ Nat.two_pow_pos j
  have hdegree := (selectExact_ok (select_ok h).1).2
  rw [slotsNeeded, if_neg (by simpa using hsteps)] at hdegree
  rcases hdegree with hprescribed | ⟨hnone, hroom⟩
  · simp only [hprescribed, Option.some.injEq, exists_eq_left']
    omega
  · simp only [hnone, reduceCtorEq, false_and, exists_false, iff_false]
    omega

end Parameters

section Executions

variable {co : Compilation} {cg : CompiledGraph} {S : Scheme} {g : Graph}

theorem Compilation.Accepted.width_le (hco : co.Accepted) (hcg : cg ∈ co.graphs) :
    cg.graph.width ≤ co.requirements.width := by
  obtain ⟨_, -, _, _, _, hcompile⟩ := hco.compiled hcg
  obtain ⟨_, hstages⟩ := Graph.compile_ok hcompile
  rw [← Graph.requirements_width hstages.requirements]
  exact hco.le_requirements (f := (·.width)) (fun _ _ => rfl) rfl hcg

theorem create_iff_dvd {keys : Public S.kind} (hg : g.width ≤ keys.context.slotCount) :
    (∃ m, Machine.create g keys = .ok m) ↔ g.width ∣ keys.context.slotCount := by
  rw [Nat.dvd_iff_mod_eq_zero]
  constructor
  · rintro ⟨m, hm⟩
    exact (create_ok.mp hm).1.2
  · intro hmod
    exact ⟨_, create_ok.mpr ⟨⟨hg, hmod⟩, rfl⟩⟩

theorem spansRows_iff_of_select (h : Parameters.select kind r c = .ok p)
    (hr : ∃ j, r.width = 2 ^ j) (hg : g.width ≤ r.width) {keys : Public (schemeOf kind).kind}
    (hkeys : keys.context.params = p) :
    SpansRows keys g ↔ kind = .bfv ∧ p.degree.toNat = r.width ∧ r.width < 2 * g.width := by
  have hrow : keys.context.rowSize = p.rowSize := by rw [Context.rowSize, hkeys]
  rw [SpansRows, hrow, Parameters.rowSize_lt_iff h hr hg]
  refine and_iff_right_of_imp ?_
  rintro ⟨rfl, -⟩
  rfl

/-- Parameters selected for a power of two of slots are valid, have a whole number of times as many
slots and, in the approximate family, levels for the depth. The rows of their context hold the
vectors to be rotated unless the ring degree of the exact family is prescribed to be the width. A
graph that the keys were made for is refused for its width only if that is no power of two, as
members of a group may have it, and for its rows only at a rotation of a ciphertext in the exact
family, if the degree is the width required and more than half of that is the width of the graph. -/
theorem Parameters.select_serves (hr : ∃ j, r.width = 2 ^ j)
    (h : Parameters.select kind r c = .ok p) :
    p.scheme = kind ∧ p.validate = .ok () ∧ r.width ∣ p.slotCount ∧
    (kind = .ckks → p.maxLevel = r.depth) ∧
    (∀ v, ∃ context v', Runs (Exec.derive p) v (.ok context) v' ∧ context.params = p ∧
      (r.rotationSteps ≠ [] → (context.rowSize < r.width ↔
        kind = .bfv ∧ ∃ degree, c.degree = some degree ∧ degree.toNat = r.width))) ∧
    ∀ co : Compilation, co.Accepted → co.requirements = r → ∀ cg ∈ co.graphs,
      ∀ keys : Public (schemeOf kind).kind, keys.context.params = p →
        ((∃ m : Machine (schemeOf kind), Machine.create cg.graph keys = .ok m) ↔
          ∃ i, cg.graph.width = 2 ^ i) ∧
        ∀ inputs v node row,
          (∃ v', Runs (execute (schemeOf kind) keys cg.graph inputs) v
              (.error (.configuration (.rotationRow node row))) v') ↔
            (kind = .bfv ∧ p.degree.toNat = r.width ∧ r.width < 2 * cg.graph.width) ∧
              row = p.rowSize ∧
                ∃ m v₁, Reaches keys cg.graph inputs v node m v₁ ∧ m.TurnsCipher node := by
  obtain ⟨-, hvalid, hfits⟩ := select_ok h
  have hslots : r.width ≤ p.slotCount := (le_max_left ..).trans hfits
  refine ⟨scheme_of_select h, hvalid, (dvd_slotCount_iff hvalid hslots).mpr hr,
    maxLevel_of_select h, fun v => ?_, ?_⟩
  · refine ⟨⟨v.heaps.length, p⟩, ⟨v.heaps ++ [.empty]⟩, ?_, rfl, rowSize_lt_width_iff h hr⟩
    unfold Exec.derive
    rw [hvalid]
    rfl
  · rintro co hco rfl cg hcg keys hkeys
    have hwidth := hco.width_le hcg
    have hcount : keys.context.slotCount = p.slotCount := by rw [Context.slotCount, hkeys]
    have hrow : keys.context.rowSize = p.rowSize := by rw [Context.rowSize, hkeys]
    constructor
    · rw [create_iff_dvd (by rw [hcount]; exact hwidth.trans hslots), hcount]
      exact dvd_slotCount_iff hvalid (hwidth.trans hslots)
    · intro inputs v node row
      rw [execute_row_iff, spansRows_iff_of_select h hr hwidth hkeys, hrow]

end Executions

/-- The vector `x` of 1024 slots, encrypted, turned left by one slot. -/
def wideTurn : Graph :=
  { Graph.blank "g" 1024 ⟨0⟩ with
    nodes := [⟨0, .input "x" .cipher⟩, ⟨1, .rotateLeft 1⟩, ⟨2, .output "z"⟩]
    edges := [⟨⟨1, 0⟩, ⟨2, 0⟩, 0⟩, ⟨⟨0, 0⟩, ⟨1, 0⟩, 0⟩]
    inputs := ⟨[("x", 0)]⟩
    outputs := ⟨[("z", 2)]⟩ }

def compiledWideTurn : CompiledGraph where
  scheme := .bfv
  graph := wideTurn
  types := ⟨[(0, .cipher), (1, .cipher), (2, .cipher)]⟩
  signature := ⟨1024, ⟨[("x", ⟨.cipher, 0, 0⟩)]⟩, ⟨[("z", .cipher)]⟩⟩
  requirements := ⟨[1], 0, false, 1024⟩
  report := .unchanged

theorem accepted_compiledWideTurn : Compilation.Accepted (.graph compiledWideTurn) := by
  have hcreate : Graph.create "g" 1024 ⟨0⟩ = .ok (.blank "g" 1024 ⟨0⟩) := rfl
  have h₀ : (Graph.blank "g" 1024 ⟨0⟩).Built ⟨[0]⟩ := .create hcreate (by decide)
  have h₁ := h₀.extend (by decide) (.input "x" .cipher) [] rfl (by simp) rfl
  have h₂ := h₁.extend (by decide) (.rotateLeft 1) [0] rfl (by decide) trivial
  have h₃ := h₂.extend (by decide) (.output "z") [1] rfl (by decide) rfl
  have hcompile : Runs (wideTurn.compile (.ofScheme .bfv)) ⟨[3]⟩ (.ok compiledWideTurn) ⟨[3]⟩ := by
    unfold Runs
    cbv
  exact .graph h₃.reachable hcompile

/-- A prescribed degree of 1024, which is as many slots as the graph is wide. -/
def denseConfig : SchemeConfig :=
  { SchemeConfig.default with
    degree := some 1024
    plainModulus := 12289 }

theorem select_wideTurn :
    Parameters.select .bfv compiledWideTurn.requirements denseConfig =
      .ok (.bfv 1024 12289) := rfl

def boundWideTurn (pub : Public SchemeKind.bfv) (x : Exact.Ciphertext) : Machine .bfv :=
  ⟨wideTurn, pub, ⟨[(0, .cipher x)]⟩⟩

theorem reaches_boundWideTurn {pub : Public SchemeKind.bfv}
    (hpub : pub.context.params = .bfv 1024 12289) {x : Exact.Ciphertext} (hx : x.keyId = pub.keyId)
    (v : Vault) :
    Reaches (S := .bfv) pub wideTurn ⟨[("x", .cipher x)]⟩ v 1 (boundWideTurn pub x) v := by
  have horder : wideTurn.forwardOrder = .ok ([0] ++ 1 :: [2]) := by with_unfolding_all rfl
  have hslots : pub.context.slotCount = 1024 := by
    rw [Context.slotCount, hpub]
    rfl
  refine ⟨boundWideTurn pub x, [0], [2], wideTurn.useCounts, ⟨?_, ?_⟩, horder, ?_⟩
  · rw [hslots]
    decide
  · have hinput : wideTurn.inputs.find? "x" = some 0 := by decide
    rw [bindAll_cons hinput (by rintro _ ⟨⟩; exact hx)]
    rfl
  · have hop : wideTurn.op? 0 = .ok (.input "x" .cipher) := rfl
    have hoperands : wideTurn.operands 0 = [] := Graph.operands_eq_reverse (by decide)
    have hheld : (boundWideTurn pub x).values.contains 0 = true := rfl
    have hvisit : Runs ((boundWideTurn pub x).visit 0) v (.ok (boundWideTurn pub x)) v := by
      rw [visit_input hop, if_pos hheld]
      exact runs_pure.mpr ⟨rfl, rfl⟩
    have hfree : (boundWideTurn pub x).freeOperands wideTurn.useCounts
        ((boundWideTurn pub x).graph.operands 0) = (boundWideTurn pub x, wideTurn.useCounts) := by
      change (boundWideTurn pub x).freeOperands _ (wideTurn.operands 0) = _
      rw [hoperands]
      rfl
    refine .cons hvisit ?_
    rw [hfree]
    exact .nil ..

/-- Keys are made for a graph that cannot be executed with them. -/
theorem Parameters.select_serves_wideTurn :
    ∃ (pub : Public SchemeKind.bfv) (sec : Secret SchemeKind.bfv),
      Parameters.select .bfv compiledWideTurn.requirements denseConfig =
        .ok (.bfv 1024 12289) ∧
      generateKeys .bfv ⟨0, .bfv 1024 12289⟩ compiledWideTurn.requirements (.ofSeed 7) =
        .ok (pub, sec) ∧
      (∃ m : Machine .bfv, Machine.create wideTurn pub = .ok m) ∧
      ∀ x : Exact.Ciphertext, x.keyId = pub.keyId → ∀ v, ∃ v',
        Runs (execute .bfv pub wideTurn ⟨[("x", .cipher x)]⟩) v
          (.error (.configuration (.rotationRow 1 512))) v' := by
  have hturns : (Context.mk 0 (.bfv 1024 12289)).Turns 9 := ⟨rfl, rfl⟩
  obtain ⟨_, helements⟩ := hturns.exists_galoisElements compiledWideTurn.requirements.rotationSteps
  obtain ⟨pub, sec, hkeys⟩ := exists_generateKeys rfl helements (.ofSeed 7)
  have hpub : pub.context.params = .bfv 1024 12289 := by
    rw [(paired_generateKeys hkeys).context.1]
  obtain ⟨-, -, -, -, -, hserves⟩ :=
    Parameters.select_serves ⟨10, rfl⟩ select_wideTurn
  obtain ⟨hcreate, hrows⟩ :=
    hserves _ accepted_compiledWideTurn rfl compiledWideTurn List.mem_cons_self pub hpub
  refine ⟨pub, sec, select_wideTurn, hkeys, hcreate.mpr ⟨10, rfl⟩,
    fun x hx v => (hrows _ v 1 512).mpr ?_⟩
  refine ⟨⟨rfl, rfl, by decide⟩, rfl, boundWideTurn pub x, v, reaches_boundWideTurn hpub hx v, ?_⟩
  have hoperands : wideTurn.operands 1 = [0] := Graph.operands_eq_reverse (by decide)
  exact ⟨.rotateLeft 1, 1, true, 0, [], x, rfl, rfl, hoperands, rfl⟩

/-- The degree prescribed has slots enough, and is taken although its rows do not hold the vectors
that are to be rotated. -/
theorem Parameters.short_row_of_prescribed :
    ∃ p, Parameters.select .bfv ⟨[1], 0, false, 2 ^ 10⟩ denseConfig = .ok p ∧
      SchemeKind.bfv.capabilities.rotationKeys = true ∧ p.rowSize = 512 ∧ ¬ 2 ^ 10 ≤ p.rowSize :=
  ⟨.bfv 1024 12289, select_wideTurn, rfl, rfl, by decide⟩

end CipherGraph

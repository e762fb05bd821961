import CipherGraph.Graph.Validation
import CipherGraph.Proofs.Acyclicity
import CipherGraph.Proofs.Typing

/-! # Valid graphs

What validation finds fault with, and what a graph without faults is like.
-/

namespace CipherGraph

namespace Graph

variable {g : Graph}

theorem outputFaults_eq_nil : g.outputFaults = [] ↔ g.outputs.entries ≠ [] := by
  simp [outputFaults]

theorem countFaults_eq_nil (hg : g.Sound) {n : Node} (hn : n ∈ g.nodes) : g.countFaults n = [] :=
  if_pos (hg.arity n hn)

theorem lengthFaults_eq_nil {n : Node} : g.lengthFaults n = [] ↔
    ∀ value, n.op = .constant value → value.length ≠ 0 ∧ value.length ∣ g.width := by
  unfold lengthFaults
  split
  · next value hop =>
    simp [hop, Constant.fills, Nat.dvd_iff_mod_eq_zero]
  · next hop =>
    simp only [true_iff]
    intro value hvalue
    exact absurd hvalue (hop value)

theorem encodeFaults_eq_nil {types : Typing} {n : Node}
    (htyped : ∀ o ∈ g.operands n.id, ∃ c, types.find? o = some c) : g.encodeFaults types n = [] ↔
      ∀ scaleBits level, n.op = .encode scaleBits level →
        ∀ o ∈ g.operands n.id, types.find? o = some .raw := by
  unfold encodeFaults
  split
  · next scaleBits level hop =>
    rw [List.filterMap_eq_nil_iff]
    constructor
    · intro h _ _ _ o ho
      obtain ⟨c, hc⟩ := htyped o ho
      specialize h o ho
      rw [hc] at h ⊢
      cases c with
      | raw => rfl
      | plain | cipher => cases h
    · intro h o ho
      rw [h scaleBits level hop o ho]
  · next hop =>
    simp only [true_iff]
    intro scaleBits level hencode
    exact absurd hencode (hop scaleBits level)

theorem inferTypes_of_validate (h : g.validate = []) : ∃ types, g.inferTypes = .ok types := by
  cases ht : g.inferTypes with
  | ok types => exact ⟨types, rfl⟩
  | error e => simp [validate, ht] at h

/-- A graph is valid if it declares an output, its constants fill the width, it can be typed, and
its encodings read raw nodes. -/
theorem validate_eq_nil_iff (hg : g.Sound) (hv : g.hidden = []) :
    g.validate = [] ↔ g.outputs.entries ≠ [] ∧
      (∀ id value, ⟨id, .constant value⟩ ∈ g.nodes →
        value.length ≠ 0 ∧ value.length ∣ g.width) ∧
      ∃ types, g.inferTypes = .ok types ∧ ∀ id scaleBits level,
        ⟨id, .encode scaleBits level⟩ ∈ g.nodes →
          ∀ o ∈ g.operands id, types.find? o = some .raw := by
  have hcounted : g.nodes.flatMap (fun n => g.countFaults n ++ g.lengthFaults n) = [] ↔
      ∀ id value, ⟨id, .constant value⟩ ∈ g.nodes →
        value.length ≠ 0 ∧ value.length ∣ g.width := by
    rw [List.flatMap_eq_nil_iff]
    constructor
    · intro h id value hn
      exact lengthFaults_eq_nil.mp (List.append_eq_nil_iff.mp (h _ hn)).2 value rfl
    · rintro h ⟨id, op⟩ hn
      rw [countFaults_eq_nil hg hn, List.nil_append, lengthFaults_eq_nil]
      rintro value rfl
      exact h id value hn
  rw [validate, List.append_eq_nil_iff, List.append_eq_nil_iff, outputFaults_eq_nil, hcounted,
    and_assoc]
  apply and_congr_right
  intro _
  apply and_congr_right
  intro _
  cases htypes : g.inferTypes with
  | error cause => simp
  | ok types =>
    have htyped (id : NodeId) : ∀ o ∈ g.operands id, ∃ c, types.find? o = some c := by
      intro o ho
      exact (typed_of_inferTypes hg htypes o (hg.mem_ids_of_mem_operands hv ho)).imp fun _ h => h.1
    simp only [List.flatMap_eq_nil_iff, Except.ok.injEq, exists_eq_left']
    constructor
    · intro h id scaleBits level hn
      exact (encodeFaults_eq_nil (htyped id)).mp (h _ hn) scaleBits level rfl
    · rintro h ⟨id, op⟩ hn
      rw [encodeFaults_eq_nil (htyped id)]
      rintro scaleBits level rfl
      exact h id scaleBits level hn

theorem Sound.inferTypes_iff_acyclic (hg : g.Sound) (hv : g.hidden = []) :
    (∃ types, g.inferTypes = .ok types) ↔ g.Acyclic := by
  rw [← hg.forwardOrder_iff_acyclic hv]
  constructor
  · rintro ⟨types, h⟩
    obtain ⟨order, ho, -⟩ := Except.bind_eq_ok.mp h
    exact ⟨order, ho⟩
  · rintro ⟨order, ho⟩
    exact hg.inferTypes_ok hv ho

end Graph

end CipherGraph

import CipherGraph.Proofs.Refusals

/-! # Types of lowered graphs

A lowering gives a class to each node it adds and looks at no other. What it puts in the place of a
node has the class of that node, so that the classes are still those that an inference over the
whole graph finds, also where a lowering stops halfway.
-/

namespace CipherGraph

namespace Lower

variable {s s' : LoweringState}

/-- A lowering types the nodes it adds and nothing that is no node. -/
theorem Path.mem_ids (h : Path s s') (hs : ∀ id d, s.types.find? id = some d → id ∈ s.graph.ids) :
    ∀ id d, s'.types.find? id = some d → id ∈ s'.graph.ids := by
  induction h with
  | refl => exact hs
  | @tail t _ _ hc ih =>
    cases hc with
    | @emitted op operands new _ _ type hop h =>
      obtain ⟨-, -, -, -, -, rfl⟩ := Graph.makeNode_ok.mp h
      rw [Graph.declare_of_isOriginal hop]
      exact OrderedMap.forall_find?_insert (Graph.mem_ids_grow.mpr (.inl rfl)) fun id d hd =>
        Graph.mem_ids_grow.mpr (.inr (ih id d hd))
    | reported => exact ih
    | replaced h =>
      rw [Graph.ids_replaceUses h]
      exact ih

end Lower

namespace Graph

variable {g : Graph} {t : Typing}

/-- There is only one way to type the nodes of an acyclic graph. -/
theorem Typed.eq_inferTypes (ht : g.Typed t) (h : g.Sound) (hv : g.hidden = []) (ha : g.Acyclic)
    (hids : ∀ id d, t.find? id = some d → id ∈ g.ids) :
    ∃ t', g.inferTypes = .ok t' ∧ ∀ id, t.find? id = t'.find? id := by
  obtain ⟨order, ho⟩ := (h.forwardOrder_iff_acyclic hv).mpr ha
  obtain ⟨rank, hrank⟩ := (h.forwardOrder_ok_iff hv).mp ⟨order, ho⟩
  obtain ⟨t', ht'⟩ := h.inferTypes_ok hv ho
  refine ⟨t', ht', fun id => ?_⟩
  by_cases hid : id ∈ g.ids
  · exact ht.unique (typed_of_inferTypes h ht') h hv hrank hid
  · rw [Option.eq_none_iff_forall_ne_some.mpr fun d hd => hid (hids id d hd),
      Option.eq_none_iff_forall_ne_some.mpr fun d hd => hid (mem_ids_of_inferTypes h ht' hd)]

/-- A valid graph is typed, and wherever its lowering ends, the types that were kept up are those of
the rewritten graph, unless it hides a node. -/
theorem lower_types_eq_inferTypes (hg : g.Reachable) (hvalid : g.validate = [])
    (o : LoweringOptions) (c : IdCounters) :
    ∃ t, g.inferTypes = .ok t ∧ ((g.lower t o c).2.graph.hidden = [] →
      ∃ t', (g.lower t o c).2.graph.inferTypes = .ok t' ∧
        (∀ id, (g.lower t o c).2.types.find? id = t'.find? id) ∧
        ∀ id, (∃ d, (g.lower t o c).2.types.find? id = some d) ↔
          id ∈ (g.lower t o c).2.graph.ids) := by
  obtain ⟨t, ht⟩ := inferTypes_of_validate hvalid
  refine ⟨t, ht, fun hv => ?_⟩
  obtain ⟨order, ho, -⟩ := Except.bind_eq_ok.mp ht
  obtain ⟨⟨hacyclic, htyped⟩, -⟩ := lower_refused hg hvalid ht ho hv
  have hpath := path_lower g t o c
  have hids := Lower.Path.mem_ids hpath fun id d hd => mem_ids_of_inferTypes hg.sound ht hd
  obtain ⟨t', ht', heq⟩ :=
    htyped.eq_inferTypes (hpath.reachable hg).sound hv hacyclic hids
  refine ⟨t', ht', heq, fun id => ⟨?_, fun hid => htyped.found hid⟩⟩
  rintro ⟨d, hd⟩
  exact hids id d hd

/-- The quotient of a difference `y - x` and the encrypted `x`, for which no exact scheme has a
form. -/
def quotientOfDifference : Graph :=
  { blank "g" 1 ⟨0⟩ with
    nodes :=
      [⟨0, .input "x" .cipher⟩, ⟨1, .input "y" .plain⟩, ⟨2, .arithmetic .sub⟩,
        ⟨3, .arithmetic .div⟩, ⟨4, .output "z"⟩]
    edges :=
      [⟨⟨3, 0⟩, ⟨4, 0⟩, 0⟩, ⟨⟨0, 0⟩, ⟨3, 0⟩, 1⟩, ⟨⟨2, 0⟩, ⟨3, 0⟩, 0⟩, ⟨⟨0, 0⟩, ⟨2, 0⟩, 1⟩,
        ⟨⟨1, 0⟩, ⟨2, 0⟩, 0⟩]
    inputs := ⟨[("x", 0), ("y", 1)]⟩
    outputs := ⟨[("z", 4)]⟩ }

theorem assembled_quotientOfDifference : quotientOfDifference.Assembled := by
  have hcreate : Graph.create "g" 1 ⟨0⟩ = .ok (.blank "g" 1 ⟨0⟩) := rfl
  have h₁ := (Assembled.create hcreate).extend ⟨[0]⟩ (.input "x" .cipher) [] rfl (by simp) rfl
  have h₂ := h₁.extend ⟨[1]⟩ (.input "y" .plain) [] rfl (by simp) rfl
  have h₃ := h₂.extend ⟨[2]⟩ (.arithmetic .sub) [1, 0] rfl (by decide) trivial
  have h₄ := h₃.extend ⟨[3]⟩ (.arithmetic .div) [2, 0] rfl (by decide) trivial
  exact h₄.extend ⟨[4]⟩ (.output "z") [3] rfl (by decide) rfl

/-- The difference is rewritten before the quotient is refused. The two nodes that were added have
the types that they are inferred to have. -/
theorem lower_types_eq_inferTypes_quotientOfDifference :
    quotientOfDifference.validate = [] ∧ ∃ t, quotientOfDifference.inferTypes = .ok t ∧
      (quotientOfDifference.lower t ⟨.bfv, 0⟩ ⟨[5]⟩).1 = .error (.unsupported 3 "div" .bfv) ∧
      (quotientOfDifference.lower t ⟨.bfv, 0⟩ ⟨[5]⟩).2.graph.ids = [0, 1, 2, 3, 4, 5, 6] ∧
      ∃ t', (quotientOfDifference.lower t ⟨.bfv, 0⟩ ⟨[5]⟩).2.graph.inferTypes = .ok t' ∧
        ∀ id, (quotientOfDifference.lower t ⟨.bfv, 0⟩ ⟨[5]⟩).2.types.find? id = t'.find? id := by
  have hvalid : quotientOfDifference.validate = [] := by cbv
  have htypes : quotientOfDifference.inferTypes =
      .ok ⟨[(0, .cipher), (1, .plain), (2, .cipher), (3, .cipher), (4, .cipher)]⟩ := by cbv
  obtain ⟨t, ht, h⟩ := lower_types_eq_inferTypes assembled_quotientOfDifference.reachable hvalid
    ⟨.bfv, 0⟩ ⟨[5]⟩
  cases ht.symm.trans htypes
  have hlow : (fun low => (low.1, low.2.graph.hidden, low.2.graph.ids))
      (quotientOfDifference.lower ⟨[(0, .cipher), (1, .plain), (2, .cipher), (3, .cipher),
        (4, .cipher)]⟩ ⟨.bfv, 0⟩ ⟨[5]⟩) =
      (.error (.unsupported 3 "div" .bfv), [], [0, 1, 2, 3, 4, 5, 6]) := by cbv
  simp only [Prod.mk.injEq] at hlow
  obtain ⟨hstops, hvisible, hids⟩ := hlow
  obtain ⟨t', ht', heq, -⟩ := h hvisible
  exact ⟨hvalid, _, ht, hstops, hids, t', ht', heq⟩

/-- A difference `y - x` of which the lowering takes the last id and then the id of `x`. -/
def lastIdDifference : Graph :=
  { blank "g" 1 ⟨0⟩ with
    nodes :=
      [⟨0, .input "x" .cipher⟩, ⟨1, .input "y" .plain⟩, ⟨2, .arithmetic .sub⟩, ⟨3, .output "z"⟩]
    edges := [⟨⟨2, 0⟩, ⟨3, 0⟩, 0⟩, ⟨⟨0, 0⟩, ⟨2, 0⟩, 1⟩, ⟨⟨1, 0⟩, ⟨2, 0⟩, 0⟩]
    inputs := ⟨[("x", 0), ("y", 1)]⟩
    outputs := ⟨[("z", 3)]⟩ }

theorem assembled_lastIdDifference : lastIdDifference.Assembled := by
  have hcreate : Graph.create "g" 1 ⟨0⟩ = .ok (.blank "g" 1 ⟨0⟩) := rfl
  have h₁ := (Assembled.create hcreate).extend ⟨[0]⟩ (.input "x" .cipher) [] rfl (by simp) rfl
  have h₂ := h₁.extend ⟨[1]⟩ (.input "y" .plain) [] rfl (by simp) rfl
  have h₃ := h₂.extend ⟨[2]⟩ (.arithmetic .sub) [1, 0] rfl (by decide) trivial
  exact h₃.extend ⟨[3]⟩ (.output "z") [2] rfl (by decide) rfl

/-- The sum that is put in hides `x`, and what reads `x` is never worked off: there are types, and
none to be inferred. -/
theorem lower_types_lastIdDifference : lastIdDifference.Reachable ∧
    lastIdDifference.validate = [] ∧ ∃ t, lastIdDifference.inferTypes = .ok t ∧
      (lastIdDifference.lower t ⟨.bfv, 0⟩ ⟨[18446744073709551615]⟩).1 = .ok () ∧
      (lastIdDifference.lower t ⟨.bfv, 0⟩ ⟨[18446744073709551615]⟩).2.types.find? 0 =
        some .cipher ∧
      (lastIdDifference.lower t ⟨.bfv, 0⟩ ⟨[18446744073709551615]⟩).2.graph.inferTypes =
        .error (.operandCycle 0) := by
  have htypes : lastIdDifference.inferTypes =
      .ok ⟨[(0, .cipher), (1, .plain), (2, .cipher), (3, .cipher)]⟩ := by cbv
  have hlow : (fun low => (low.1, low.2.types.find? 0, low.2.graph.inferTypes))
      (lastIdDifference.lower ⟨[(0, .cipher), (1, .plain), (2, .cipher), (3, .cipher)]⟩
        ⟨.bfv, 0⟩ ⟨[18446744073709551615]⟩) =
      (.ok (), some .cipher, .error (.operandCycle 0)) := by cbv
  simp only [Prod.mk.injEq] at hlow
  exact ⟨assembled_lastIdDifference.reachable, by cbv, _, htypes, hlow⟩

end Graph

end CipherGraph

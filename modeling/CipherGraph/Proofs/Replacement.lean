import CipherGraph.Proofs.Reachable

/-! # Position-wise replacement

What a replacement does to the operand lists of a reachable graph, and how many operands it counts.
-/

namespace CipherGraph.Graph

/-- The operands of the node at a place, as places. -/
def operandPlaces (g : Graph) (p : Place) : List Place :=
  (byPosition (g.edges.filter (·.target = p))).map (·.source)

variable {g : Graph} {old new : NodeId}

theorem countP_contains_cons (edges : List Edge) {p : Place} {l : List Place} (hp : p ∉ l)
    (q : Edge → Bool) :
    edges.countP (fun e => (p :: l).contains e.target && q e) =
      edges.countP (fun e => decide (e.target = p) && q e) +
        edges.countP fun e => l.contains e.target && q e := by
  induction edges with
  | nil => rfl
  | cons e edges ih =>
    simp only [List.countP_cons, ih]
    by_cases he : e.target = p
    · subst he
      simp [hp]
      omega
    · simp [he]
      omega

theorem sum_countP_target (edges : List Edge) {l : List Place} (hl : l.Nodup) (q : Edge → Bool) :
    (l.map fun p => edges.countP fun e => decide (e.target = p) && q e).sum =
      edges.countP fun e => l.contains e.target && q e := by
  induction l with
  | nil => simp
  | cons p l ih =>
    obtain ⟨hp, hl⟩ := List.nodup_cons.mp hl
    rw [List.map_cons, List.sum_cons, ih hl, countP_contains_cons edges hp]

theorem length_redirected (h : g.Sound) :
    (g.redirected old new).length =
      ((g.places.filter (· ≠ g.place new)).map fun p =>
        (g.operandPlaces p).count (g.place old)).sum := by
  have hcount (p : Place) : (g.operandPlaces p).count (g.place old) =
      g.edges.countP fun e => decide (e.target = p) && decide (e.source = g.place old) := by
    rw [operandPlaces, ((byPosition_perm _).map _).count_eq, List.count_eq_countP, List.countP_map,
      List.countP_filter]
    refine List.countP_congr ?_
    intro e _
    simp [and_comm]
  simp only [hcount]
  rw [sum_countP_target _ ((nodup_places h.nodup).filter _), redirected, outgoing,
    List.filter_filter, ← List.countP_eq_length_filter]
  refine List.countP_congr ?_
  intro e he
  simp [h.targets e he]

/-- The operand lists after a replacement. Consumers read `new` where they read `old`, as far as
their ports keep the positions apart. -/
theorem replaceUses_positionwise (hg : g.Reachable) (hold : old ∈ g.ids) (hnew : new ∈ g.ids)
    (hne : old ≠ new) :
    ∃ count g', g.replaceUses old new = .ok (count, g') ∧
      count = ((g.places.filter (· ≠ g.place new)).map fun p =>
        (g.operandPlaces p).count (g.place old)).sum ∧
      g'.operands new = g.operands new ∧
      ∀ c ∈ g.ids, c ≠ new →
        (g'.operands c = (g.operands c).map (fun o => if o = old then new else o) ↔
          g.KeepsPositions old new c) := by
  refine ⟨_, _, replaceUses_eq_ok.mpr ⟨hold, hnew, .inr ⟨hne, rfl, rfl⟩⟩,
    length_redirected hg.sound, operands_redirect_self .., ?_⟩
  intro c _ hc
  exact operands_redirect_iff hne hc

/-- A restored difference `y - x` with both operands on port 0, where the newer edge comes first. -/
def sharedPort : Graph :=
  { blank "g" 1 ⟨0⟩ with
    nodes :=
      [⟨0, .input "x" .raw⟩, ⟨1, .input "y" .raw⟩, ⟨2, .input "z" .raw⟩, ⟨3, .arithmetic .sub⟩]
    edges := [⟨⟨1, 0⟩, ⟨3, 0⟩, 0⟩, ⟨⟨0, 0⟩, ⟨3, 0⟩, 0⟩]
    inputs := ⟨[("x", 0), ("y", 1), ("z", 2)]⟩ }

theorem reachable_sharedPort : sharedPort.Reachable := by
  have h : Runs (Graph.ofParts "g" 1 sharedPort.nodes [(3, 0, 0), (3, 0, 1)] ⟨0⟩) ⟨[4]⟩
      (.ok sharedPort) ⟨[4]⟩ := by
    unfold Runs
    cbv
  exact .ofParts h

/-- Here `x` stands last, and `z` in its place comes first. -/
theorem replaceUses_sharedPort_moves :
    ¬∀ (g g' : Graph) (old new c : NodeId) (count : Nat), g.Reachable →
      g.replaceUses old new = .ok (count, g') → old ≠ new → c ∈ g.ids → c ≠ new →
      g'.operands c = (g.operands c).map fun o => if o = old then new else o := by
  intro h
  have hmoved := h sharedPort (sharedPort.redirect 0 2) 0 2 3 1 reachable_sharedPort
    rfl (by decide) (by decide) (by decide)
  have hbefore : sharedPort.operands 3 = [1, 0] := by cbv
  have hafter : (sharedPort.redirect 0 2).operands 3 = [2, 1] := by cbv
  rw [hbefore, hafter] at hmoved
  exact absurd hmoved (by decide)

theorem replaceUses_positionwise_sharedPort :
    ∃ count g', sharedPort.replaceUses 1 2 = .ok (count, g') ∧
      count = ((sharedPort.places.filter (· ≠ sharedPort.place 2)).map fun p =>
        (sharedPort.operandPlaces p).count (sharedPort.place 1)).sum ∧
      g'.operands 2 = sharedPort.operands 2 ∧
      ∀ c ∈ sharedPort.ids, c ≠ 2 →
        (g'.operands c = (sharedPort.operands c).map (fun o => if o = 1 then 2 else o) ↔
          sharedPort.KeepsPositions 1 2 c) :=
  replaceUses_positionwise reachable_sharedPort (by decide) (by decide) (by decide)

end CipherGraph.Graph

import CipherGraph.Graph.Replacement
import CipherGraph.Proofs.Growth

/-! # Redirected consumers

A replacement takes a node's edges to its consumers out and puts them back in front, newest last.
On a port that only one edge enters this cannot be seen. Where several do, an operand keeps its
position only if no edge of a third node stands before it.
-/

namespace CipherGraph.Graph

variable {g g' : Graph} {old new : NodeId}

/-- The graph in which every consumer of `old` but `new` reads `new`. -/
def redirect (g : Graph) (old new : NodeId) : Graph :=
  { g with
    edges := (g.redirected old new).reverse.map (fun e => { e with source := g.place new }) ++
      g.edges.filter fun e => !(e.source = g.place old && e.target ≠ g.place new) }

theorem replaceUses_eq_ok {n : Nat} :
    g.replaceUses old new = .ok (n, g') ↔
      old ∈ g.ids ∧ new ∈ g.ids ∧
        (old = new ∧ n = 0 ∧ g' = g ∨
          old ≠ new ∧ n = (g.redirected old new).length ∧ g' = g.redirect old new) := by
  unfold replaceUses
  simp only [Except.bind_eq_ok, require_eq_ok, exists_const, redirect]
  refine and_congr_right fun _ => and_congr_right fun _ => ?_
  by_cases h : old = new
  · rw [if_pos h, Except.pure_eq_ok, Prod.mk.injEq]
    constructor
    · rintro ⟨rfl, rfl⟩
      exact .inl ⟨h, rfl, rfl⟩
    · rintro (⟨-, rfl, rfl⟩ | ⟨hne, -⟩)
      · exact ⟨rfl, rfl⟩
      · exact absurd h hne
  · rw [if_neg h, Except.pure_eq_ok, Prod.mk.injEq]
    constructor
    · rintro ⟨rfl, rfl⟩
      exact .inr ⟨h, rfl, rfl⟩
    · rintro (⟨heq, -⟩ | ⟨-, rfl, rfl⟩)
      · exact absurd heq h
      · exact ⟨rfl, rfl⟩

theorem replaceUses_frame {n : Nat} (h : g.replaceUses old new = .ok (n, g')) :
    ∃ edges, g' = { g with edges } := by
  obtain ⟨-, -, ⟨-, -, rfl⟩ | ⟨-, -, rfl⟩⟩ := replaceUses_eq_ok.mp h
  · exact ⟨_, rfl⟩
  · exact ⟨_, rfl⟩

theorem ids_replaceUses {n : Nat} (h : g.replaceUses old new = .ok (n, g')) : g'.ids = g.ids := by
  obtain ⟨_, rfl⟩ := replaceUses_frame h
  rfl

/-- The edges into a consumer: those of the new node in the order opposite to the old node's. -/
theorem incoming_redirect (g : Graph) {old new c : NodeId} (hc : c ≠ new) :
    (g.redirect old new).incoming c =
      ((g.incoming c).filter (·.source = g.place old)).reverse.map
          (fun e => { e with source := g.place new }) ++
        (g.incoming c).filter (·.source ≠ g.place old) := by
  have hplace : g.place c ≠ g.place new := fun h => hc (g.place_injective h)
  change ((g.redirect old new).edges.filter (·.target = g.place c)) = _
  rw [redirect, List.filter_append, List.filter_map, List.filter_reverse, redirected, outgoing,
    incoming]
  simp only [List.filter_filter]
  congr 3
  · refine List.filter_congr ?_
    intro e _
    by_cases ht : e.target = g.place c <;> simp [ht, hplace]
  · funext e
    by_cases ht : e.target = g.place c <;> simp [ht, hplace]

theorem incoming_redirect_self (g : Graph) (old new : NodeId) :
    (g.redirect old new).incoming new = g.incoming new := by
  change ((g.redirect old new).edges.filter (·.target = g.place new)) = _
  rw [redirect, List.filter_append, incoming]
  have hnone : ((g.redirected old new).reverse.map
      fun e => { e with source := g.place new }).filter (·.target = g.place new) = [] := by
    simp only [redirected, List.filter_eq_nil_iff, List.mem_map, List.mem_reverse,
      List.mem_filter, decide_eq_true_eq]
    rintro _ ⟨e, ⟨-, hne⟩, rfl⟩
    exact hne
  rw [hnone, List.nil_append, List.filter_filter]
  refine List.filter_congr ?_
  intro e _
  by_cases ht : e.target = g.place new <;> simp [ht]

theorem operands_redirect_self (g : Graph) (old new : NodeId) :
    (g.redirect old new).operands new = g.operands new := by
  rw [operands_eq, operands_eq, incoming_redirect_self]

theorem length_operands_redirect (g : Graph) (old new c : NodeId) :
    ((g.redirect old new).operands c).length = (g.operands c).length := by
  by_cases hc : c = new
  · rw [hc, operands_redirect_self]
  · rw [length_operands, length_operands, incoming_redirect g hc, List.length_append,
      List.length_map, List.length_reverse, ← List.countP_eq_length_filter,
      ← List.countP_eq_length_filter,
      List.length_eq_countP_add_countP (·.source = g.place old) (l := g.incoming c)]
    simp

theorem operands_redirect_of_not_mem {c : NodeId} (hold : old ∉ g.operands c) :
    (g.redirect old new).operands c = g.operands c := by
  by_cases hc : c = new
  · rw [hc, operands_redirect_self]
  · have hsource : ∀ e ∈ g.incoming c, ¬ e.source = g.place old := fun e he heq =>
      hold (mem_operands.mpr ⟨e, he, by rw [heq, place]⟩)
    have hnone : (g.incoming c).filter (·.source = g.place old) = [] :=
      List.filter_eq_nil_iff.mpr fun e he => by simpa using hsource e he
    have hall : (g.incoming c).filter (·.source ≠ g.place old) = g.incoming c :=
      List.filter_eq_self.mpr fun e he => by simpa using hsource e he
    rw [operands_eq, operands_eq, incoming_redirect g hc, hnone, hall]
    rfl

/-- Pulling every `a` to the front as a `b` is the same as renaming it where it stands exactly if
only `b` stands before any `a`. -/
theorem replicate_append_filter_eq_map_iff {α : Type} [DecidableEq α] {a b : α} (hab : a ≠ b)
    (l : List α) :
    List.replicate (l.count a) b ++ l.filter (· ≠ a) = l.map (fun x => if x = a then b else x) ↔
      l.Pairwise fun x y => y = a → x = a ∨ x = b := by
  induction l with
  | nil => simp
  | cons x l ih =>
    rw [List.pairwise_cons, ← ih]
    by_cases hxa : x = a
    · subst hxa
      simp [List.replicate_succ]
    · by_cases hxb : x = b
      · subst hxb
        simp only [List.count_cons_of_ne hxa, List.filter_cons, ne_eq, hxa, not_false_eq_true,
          decide_true, ↓reduceIte, List.map_cons, false_or, implies_true, true_and]
        rw [← List.singleton_append, ← List.append_assoc, ← List.replicate_succ',
          List.replicate_succ, List.cons_append, List.cons_inj_right]
      · cases hn : l.count a with
        | zero =>
          have hmem : a ∉ l := List.count_eq_zero.mp hn
          have hvac : ∀ y ∈ l, y = a → False ∨ x = b := fun y hy h => absurd (h ▸ hy) hmem
          simp only [List.count_cons_of_ne hxa, hn, List.replicate_zero, List.nil_append,
            List.filter_cons, ne_eq, hxa, not_false_eq_true, decide_true, ↓reduceIte,
            List.map_cons, List.cons_inj_right]
          exact ⟨fun h => ⟨hvac, h⟩, fun h => h.2⟩
        | succ n =>
          have hmem : a ∈ l := List.count_pos_iff.mp (by omega)
          simp only [List.count_cons_of_ne hxa, hn, List.replicate_succ, List.cons_append,
            List.map_cons, hxa, ↓reduceIte, List.cons.injEq]
          constructor
          · rintro ⟨rfl, -⟩
            exact absurd rfl hxb
          · rintro ⟨h, -⟩
            rcases h a hmem rfl with h | h
            · exact h.elim
            · exact absurd h hxb

/-- No edge of a third node stands before an edge of `old` on a port of `c`, and no operand of `c`
is an earlier bearer of the id `old`. -/
def KeepsPositions (g : Graph) (old new c : NodeId) : Prop :=
  (∀ e ∈ g.incoming c, e.source.id = old → e.source = g.place old) ∧
    (g.incoming c).Pairwise fun e f => e.position = f.position →
      f.source.id = old → e.source.id = old ∨ e.source.id = new

theorem pairwise_of_position_iff {edges : List Edge} {R : Edge → Edge → Prop} :
    edges.Pairwise (fun e f => e.position = f.position → R e f) ↔
      ∀ p, (atPosition p edges).Pairwise R := by
  simp only [atPosition, List.pairwise_filter, decide_eq_true_eq]
  constructor
  · intro h p
    exact h.imp fun hef he hf => hef (he.trans hf.symm)
  · intro h
    rw [List.pairwise_iff_forall_sublist]
    intro e f hs hpos
    exact List.pairwise_iff_forall_sublist.mp (h f.position) hs hpos rfl

theorem map_atPosition_redirect (g : Graph) (old : NodeId) {new c : NodeId} (hc : c ≠ new)
    (p : Nat) :
    (atPosition p ((g.redirect old new).incoming c)).map (·.source.id) =
      List.replicate ((atPosition p (g.incoming c)).countP (·.source = g.place old)) new ++
        ((atPosition p (g.incoming c)).filter (·.source ≠ g.place old)).map (·.source.id) := by
  rw [incoming_redirect g hc, atPosition, List.filter_append, List.map_append, List.filter_map,
    List.map_map]
  congr 1
  · change List.map (fun _ => new) _ = _
    rw [List.map_const', List.filter_reverse, List.length_reverse, List.countP_eq_length_filter,
      atPosition]
    simp only [List.filter_filter, Function.comp_def, Bool.and_comm]
  · rw [atPosition]
    simp only [List.filter_filter, Bool.and_comm]

theorem length_atPosition_redirect {c : NodeId} (hc : c ≠ new) (p : Nat) :
    (atPosition p ((g.redirect old new).incoming c)).length =
      (atPosition p (g.incoming c)).length := by
  have h := congrArg List.length (map_atPosition_redirect g old hc p)
  rw [List.length_append, List.length_map, List.length_map, List.length_replicate] at h
  rw [h, List.length_eq_countP_add_countP (·.source = g.place old) (l := atPosition p _),
    List.countP_eq_length_filter (p := fun a => decide ¬_)]
  simp

/-- On one port, where no operand is an earlier bearer of the id. -/
theorem map_atPosition_redirect_eq_iff {c : NodeId} (hne : old ≠ new) (hc : c ≠ new) (p : Nat)
    (hbearer : ∀ e ∈ g.incoming c, e.source.id = old → e.source = g.place old) :
    (atPosition p ((g.redirect old new).incoming c)).map (·.source.id) =
        (atPosition p (g.incoming c)).map
          (fun e => if e.source.id = old then new else e.source.id) ↔
      (atPosition p (g.incoming c)).Pairwise fun e f =>
        f.source.id = old → e.source.id = old ∨ e.source.id = new := by
  have hsource : ∀ e ∈ atPosition p (g.incoming c), e.source = g.place old ↔ e.source.id = old :=
    fun e he => ⟨fun h => congrArg Place.id h, hbearer e (List.mem_filter.mp he).1⟩
  have hcount : (atPosition p (g.incoming c)).countP (·.source = g.place old) =
      ((atPosition p (g.incoming c)).map (·.source.id)).count old := by
    rw [List.count_eq_countP, List.countP_map]
    exact List.countP_congr fun e he => by simpa using hsource e he
  have hfilter : ((atPosition p (g.incoming c)).filter (·.source ≠ g.place old)).map
      (·.source.id) = ((atPosition p (g.incoming c)).map (·.source.id)).filter (· ≠ old) := by
    rw [List.filter_map]
    refine congrArg _ (List.filter_congr fun e he => ?_)
    simp [hsource e he]
  rw [map_atPosition_redirect g old hc, hcount, hfilter,
    ← List.pairwise_map (f := fun e : Edge => e.source.id)
      (R := fun x y => y = old → x = old ∨ x = new),
    ← replicate_append_filter_eq_map_iff hne, List.map_map]
  rfl

theorem operands_redirect_iff {c : NodeId} (hne : old ≠ new) (hc : c ≠ new) :
    (g.redirect old new).operands c = (g.operands c).map (fun o => if o = old then new else o) ↔
      g.KeepsPositions old new c := by
  rw [operands_eq, operands_eq, List.map_map,
    map_byPosition_eq_iff fun p => length_atPosition_redirect hc p, KeepsPositions,
    pairwise_of_position_iff]
  constructor
  · intro h
    have hbearer : ∀ e ∈ g.incoming c, e.source.id = old → e.source = g.place old := by
      -- Such an operand would stay, but no renamed list holds `old`.
      intro e he hid
      by_contra hsource
      have hmem : old ∈ (atPosition e.position ((g.redirect old new).incoming c)).map
          (·.source.id) := by
        rw [map_atPosition_redirect g old hc, List.mem_append]
        refine .inr (List.mem_map.mpr ⟨e, ?_, hid⟩)
        simp [atPosition, he, hsource]
      rw [h, List.mem_map] at hmem
      obtain ⟨f, -, hf⟩ := hmem
      simp only [Function.comp_apply] at hf
      split at hf
      · exact hne hf.symm
      · contradiction
    exact ⟨hbearer, fun p => (map_atPosition_redirect_eq_iff hne hc p hbearer).mp (h p)⟩
  · rintro ⟨hbearer, hp⟩ p
    exact (map_atPosition_redirect_eq_iff hne hc p hbearer).mpr (hp p)

end CipherGraph.Graph

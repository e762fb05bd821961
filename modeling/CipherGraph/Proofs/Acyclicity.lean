import CipherGraph.Proofs.GroupIds
import CipherGraph.Proofs.Order
import Mathlib.Data.Finset.Card
import Mathlib.Logic.Relation

/-! # Cycles

New nodes read older ones and removals only drop edges, so neither closes a cycle. A replacement
lets consumers of the old node read the new one; it closes a cycle exactly if one of those that
move leads to the new node. The edge by which the new node itself reads the old one stays, but
not those of the nodes in between.
-/

namespace CipherGraph.Graph

open Relation

variable {g g' : Graph} {old new : NodeId} {p q : Place}

/-- One place is an operand of another. -/
def Feeds (g : Graph) (p q : Place) : Prop := ∃ e ∈ g.edges, e.source = p ∧ e.target = q

def Acyclic (g : Graph) : Prop := ∀ p, ¬TransGen g.Feeds p p

/-- The consumers that a replacement moves from `old` to `new`. -/
def Moves (g : Graph) (old new : NodeId) (q : Place) : Prop :=
  g.Feeds (g.place old) q ∧ q ≠ g.place new

/-- No consumer that moves to `new` leads to `new`. -/
def Avoids (g : Graph) (old new : NodeId) : Prop :=
  ∀ q, g.Moves old new q → ¬ReflTransGen g.Feeds q (g.place new)

theorem Acyclic.mono (h : g.Acyclic) (hsub : ∀ p q, g'.Feeds p q → g.Feeds p q) : g'.Acyclic :=
  fun p hp => h p (TransGen.mono hsub p p hp)

theorem Sound.mem_places_of_feeds (h : g.Sound) (hpq : g.Feeds p q) :
    p ∈ g.places ∧ q ∈ g.places := by
  obtain ⟨e, he, rfl, rfl⟩ := hpq
  exact ⟨h.sources e he, h.targets e he⟩

theorem place_mem_places_iff {id : NodeId} : g.place id ∈ g.places ↔ id ∈ g.ids := by
  simp [mem_places, place]

theorem acyclic_blank (name : String) (width : Nat) (space : IdSpace) :
    (blank name width space).Acyclic := by
  intro p hp
  obtain ⟨q, ⟨e, he, -⟩, -⟩ := TransGen.head'_iff.mp hp
  cases he

section Grow

variable {node : Node} {operands : List NodeId}

theorem feeds_of_feeds_grow (h : (g.grow node operands).Feeds p q) :
    g.Feeds p q ∨ q = (g.grow node operands).place node.id := by
  obtain ⟨e, he, rfl, rfl⟩ := h
  rw [grow_edges] at he
  rcases List.mem_append.mp he with he | he
  · exact .inr (target_of_mem_operandEdges (List.mem_reverse.mp he)).1
  · exact .inl ⟨e, he, rfl, rfl⟩

theorem Sound.source_ne_grow_place (h : g.Sound) (hin : ∀ o ∈ operands, o ∈ g.ids)
    (hpq : (g.grow node operands).Feeds p q) : p ≠ (g.grow node operands).place node.id := by
  obtain ⟨e, he, rfl, rfl⟩ := hpq
  have hfresh : (g.grow node operands).place node.id ∉ g.places := grow_place_not_mem
  intro heq
  apply hfresh
  rw [← heq]
  exact source_of_mem_grow_edges h.sources hin he

theorem Acyclic.grow (ha : g.Acyclic) (h : g.Sound) (hin : ∀ o ∈ operands, o ∈ g.ids) :
    (g.grow node operands).Acyclic := by
  intro p hp
  have hpath : ∀ q, TransGen (g.grow node operands).Feeds p q →
      TransGen g.Feeds p q ∨ q = (g.grow node operands).place node.id := by
    intro q hq
    induction hq with
    | single hlast => exact (feeds_of_feeds_grow hlast).imp_left .single
    | tail _ hlast ih =>
      have hold := ih.resolve_right (h.source_ne_grow_place hin hlast)
      exact (feeds_of_feeds_grow hlast).imp_left hold.tail
  rcases hpath p hp with hcycle | hnew
  · exact ha p hcycle
  · obtain ⟨q, hfirst, -⟩ := TransGen.head'_iff.mp hp
    exact h.source_ne_grow_place hin hfirst hnew

end Grow

theorem feeds_declare (g : Graph) (id : NodeId) (op : Operation) :
    (g.declare id op).Feeds = g.Feeds := by
  unfold Feeds
  rw [declare_edges]

theorem Acyclic.makeNode (ha : g.Acyclic) (h : g.Sound) {op : Operation} {operands : List NodeId}
    {id : NodeId} {c c' : IdCounters} (hm : Runs (g.makeNode op operands) c (.ok (id, g')) c') :
    g'.Acyclic := by
  obtain ⟨-, hin, -, -, -, rfl⟩ := makeNode_ok.mp hm
  rw [Acyclic, feeds_declare]
  exact ha.grow h hin

theorem Acyclic.removeDead (ha : g.Acyclic) : g.removeDead.2.Acyclic := by
  apply ha.mono
  rintro p q ⟨e, he, rfl, rfl⟩
  exact ⟨e, (mem_edges_removeDead.mp he).1, rfl, rfl⟩

theorem feeds_redirect_iff :
    (g.redirect old new).Feeds p q ↔
      g.Feeds p q ∧ ¬(p = g.place old ∧ q ≠ g.place new) ∨ p = g.place new ∧ g.Moves old new q := by
  constructor
  · rintro ⟨e, he, rfl, rfl⟩
    rcases List.mem_append.mp he with he | he
    · obtain ⟨f, hf, rfl⟩ := List.mem_map.mp he
      simp only [redirected, outgoing, List.mem_reverse, List.mem_filter, decide_eq_true_eq] at hf
      exact .inr ⟨rfl, ⟨f, hf.1.1, hf.1.2, rfl⟩, hf.2⟩
    · obtain ⟨he, hkept⟩ := List.mem_filter.mp he
      exact .inl ⟨⟨e, he, rfl, rfl⟩, by simpa [Classical.or_iff_not_imp_left] using hkept⟩
  · rintro (⟨⟨e, he, rfl, rfl⟩, hkept⟩ | ⟨rfl, ⟨e, he, hsource, rfl⟩, hne⟩)
    · refine ⟨e, List.mem_append_right _ (List.mem_filter.mpr ⟨he, ?_⟩), rfl, rfl⟩
      simpa [Classical.or_iff_not_imp_left] using hkept
    · refine ⟨{ e with source := g.place new }, List.mem_append_left _ ?_, rfl, rfl⟩
      apply List.mem_map_of_mem
      simp [redirected, outgoing, he, hsource, hne]

/-- A way to `new` is still there after the replacement, at least from a consumer that has moved. -/
theorem exists_path_redirect (h : ReflTransGen g.Feeds p (g.place new)) :
    ReflTransGen (g.redirect old new).Feeds p (g.place new) ∨
      ∃ q, g.Moves old new q ∧ ReflTransGen (g.redirect old new).Feeds q (g.place new) := by
  induction h using ReflTransGen.head_induction_on with
  | refl => exact .inl .refl
  | @head p q hpq _ ih =>
    rcases ih with hpath | hmoved
    · by_cases hmoves : p = g.place old ∧ q ≠ g.place new
      · obtain ⟨rfl, hne⟩ := hmoves
        exact .inr ⟨q, ⟨hpq, hne⟩, hpath⟩
      · exact .inl (hpath.head (feeds_redirect_iff.mpr (.inl ⟨hpq, hmoves⟩)))
    · exact .inr hmoved

/-- What depends on a consumer that moves. -/
def Behind (g : Graph) (old new : NodeId) (p : Place) : Prop :=
  ∃ q, g.Moves old new q ∧ ReflTransGen g.Feeds q p

theorem Avoids.feeds_of_behind (h : g.Avoids old new) (hp : g.Behind old new p)
    (hpq : (g.redirect old new).Feeds p q) : g.Feeds p q := by
  obtain ⟨m, hm, hpath⟩ := hp
  rcases feeds_redirect_iff.mp hpq with ⟨hkept, -⟩ | ⟨rfl, -⟩
  · exact hkept
  · exact absurd hpath (h m hm)

theorem Avoids.path_redirect (h : g.Avoids old new)
    (hpq : TransGen (g.redirect old new).Feeds p q) :
    TransGen g.Feeds p q ∨ g.Behind old new q := by
  induction hpq with
  | single hlast =>
    rcases feeds_redirect_iff.mp hlast with ⟨hkept, -⟩ | ⟨-, hm⟩
    · exact .inl (.single hkept)
    · exact .inr ⟨_, hm, .refl⟩
  | tail _ hlast ih =>
    rcases ih with hpath | hbehind
    · rcases feeds_redirect_iff.mp hlast with ⟨hkept, -⟩ | ⟨-, hm⟩
      · exact .inl (hpath.tail hkept)
      · exact .inr ⟨_, hm, .refl⟩
    · have hkept := h.feeds_of_behind hbehind hlast
      obtain ⟨m, hm, hpath⟩ := hbehind
      exact .inr ⟨m, hm, hpath.tail hkept⟩

theorem Avoids.path_of_behind (h : g.Avoids old new) (hp : g.Behind old new p)
    (hpq : TransGen (g.redirect old new).Feeds p q) : TransGen g.Feeds p q := by
  obtain ⟨m, hm, hpath⟩ := hp
  induction hpq with
  | single hlast => exact .single (h.feeds_of_behind ⟨m, hm, hpath⟩ hlast)
  | tail _ hlast ih =>
    exact ih.tail (h.feeds_of_behind ⟨m, hm, hpath.trans ih.to_reflTransGen⟩ hlast)

theorem Acyclic.redirect_iff (ha : g.Acyclic) :
    (g.redirect old new).Acyclic ↔ g.Avoids old new := by
  constructor
  · intro hredirect q hm hpath
    -- The last consumer on the way that has moved reads `new` and leads to it.
    obtain ⟨m, hm, hpath⟩ : ∃ m, g.Moves old new m ∧
        ReflTransGen (g.redirect old new).Feeds m (g.place new) := by
      rcases exists_path_redirect hpath with hkept | hmoved
      · exact ⟨q, hm, hkept⟩
      · exact hmoved
    exact hredirect _ (.head' (feeds_redirect_iff.mpr (.inr ⟨rfl, hm⟩)) hpath)
  · intro havoids p hp
    rcases havoids.path_redirect hp with hcycle | hbehind
    · exact ha p hcycle
    · exact ha p (havoids.path_of_behind hbehind hp)

theorem exists_replaceUses_ok (hold : old ∈ g.ids) (hnew : new ∈ g.ids) :
    ∃ n g', g.replaceUses old new = .ok (n, g') := by
  by_cases heq : old = new
  · exact ⟨_, _, replaceUses_eq_ok.mpr ⟨hold, hnew, .inl ⟨heq, rfl, rfl⟩⟩⟩
  · exact ⟨_, _, replaceUses_eq_ok.mpr ⟨hold, hnew, .inr ⟨heq, rfl, rfl⟩⟩⟩

theorem Sound.avoids_of_not_mem (h : g.Sound) (hnot : old ∉ g.ids ∨ new ∉ g.ids) :
    g.Avoids old new := by
  rintro q ⟨hfeeds, hne⟩ hpath
  rcases hnot with hold | hnew
  · exact hold (place_mem_places_iff.mp (h.mem_places_of_feeds hfeeds).1)
  · rcases ReflTransGen.cases_tail hpath with heq | ⟨p, -, hlast⟩
    · exact hne heq.symm
    · exact hnew (place_mem_places_iff.mp (h.mem_places_of_feeds hlast).2)

theorem Acyclic.avoids_self (ha : g.Acyclic) (id : NodeId) : g.Avoids id id :=
  fun _ hm hpath => ha _ (.head' hm.1 hpath)

theorem Acyclic.replaceUses_iff (ha : g.Acyclic) {n : Nat}
    (hr : g.replaceUses old new = .ok (n, g')) : g'.Acyclic ↔ g.Avoids old new := by
  obtain ⟨-, -, ⟨rfl, -, rfl⟩ | ⟨-, -, rfl⟩⟩ := replaceUses_eq_ok.mp hr
  · exact iff_of_true ha (ha.avoids_self old)
  · exact ha.redirect_iff

/-- A place ranks by the number of places it depends on, which grows along an edge that leaves no
cycle. -/
theorem exists_rank (g : Graph) : ∃ rank : Place → Nat,
    ∀ p q, g.Feeds p q → ¬TransGen g.Feeds p p → rank p < rank q := by
  classical
  let sources := (g.edges.map (·.source)).toFinset
  refine ⟨fun p => (sources.filter fun r => TransGen g.Feeds r p).card, fun p q hpq hp => ?_⟩
  apply Finset.card_lt_card
  rw [Finset.ssubset_iff_of_subset]
  · refine ⟨p, ?_, ?_⟩
    · simp only [sources, Finset.mem_filter, List.mem_toFinset]
      refine ⟨?_, .single hpq⟩
      obtain ⟨e, he, rfl, -⟩ := hpq
      exact List.mem_map_of_mem he
    · simp only [Finset.mem_filter, not_and]
      exact fun _ => hp
  · intro r hr
    simp only [Finset.mem_filter] at hr ⊢
    exact ⟨hr.1, hr.2.tail hpq⟩

theorem Acyclic.exists_rank (ha : g.Acyclic) :
    ∃ rank : Place → Nat, ∀ p q, g.Feeds p q → rank p < rank q := by
  obtain ⟨rank, hrank⟩ := g.exists_rank
  exact ⟨rank, fun p q hpq => hrank p q hpq (ha p)⟩

theorem acyclic_of_rank (rank : Place → Nat) (hrank : ∀ p q, g.Feeds p q → rank p < rank q) :
    g.Acyclic := by
  have hless {p q : Place} (h : TransGen g.Feeds p q) : rank p < rank q := by
    induction h with
    | single h => exact hrank p _ h
    | tail _ h ih => exact Nat.lt_trans ih (hrank _ _ h)
  exact fun p hp => Nat.lt_irrefl _ (hless hp)

theorem Sound.mem_operands_iff (h : g.Sound) (hv : g.hidden = []) {id o : NodeId} :
    o ∈ g.operands id ↔ g.Feeds (g.place o) (g.place id) := by
  rw [mem_operands]
  constructor
  · rintro ⟨e, he, rfl⟩
    obtain ⟨he, ht⟩ := mem_incoming.mp he
    exact ⟨e, he, (h.source_eq_place_iff hv he).mpr rfl, ht⟩
  · rintro ⟨e, he, hs, ht⟩
    exact ⟨e, mem_incoming.mpr ⟨he, ht⟩, congrArg Place.id hs⟩

theorem Sound.forwardOrder_iff_acyclic (h : g.Sound) (hv : g.hidden = []) :
    (∃ order, g.forwardOrder = .ok order) ↔ g.Acyclic := by
  rw [h.forwardOrder_ok_iff hv]
  constructor
  · rintro ⟨rank, hrank⟩
    refine acyclic_of_rank (fun p => rank p.id) fun p q hpq => ?_
    obtain ⟨hp, hq⟩ := h.mem_places_of_feeds hpq
    rw [((mem_places_of_visible hv).mp hp).2, ((mem_places_of_visible hv).mp hq).2] at hpq
    exact hrank q.id p.id ((h.mem_operands_iff hv).mpr hpq)
  · intro ha
    obtain ⟨rank, hrank⟩ := ha.exists_rank
    refine ⟨fun id => rank (g.place id), fun id o ho => ?_⟩
    exact hrank _ _ ((h.mem_operands_iff hv).mp ho)

/-- The ids have come round to `0`, which was `x` and is now `w`. The opposite of `x`, which is the
output `z`, waits for the place of `x`, and that is never visited any more. -/
def overtakenInput : Graph :=
  { Graph.blank "a" 1 ⟨0⟩ with
    nodes :=
      [⟨0, .input "w" .raw⟩, ⟨1, .negate⟩, ⟨2, .constant (.integers [300])⟩, ⟨3, .output "z"⟩]
    hidden := [0]
    edges := [⟨⟨1, 0⟩, ⟨3, 0⟩, 0⟩, ⟨⟨0, 0⟩, ⟨1, 0⟩, 0⟩]
    inputs := ⟨[("x", 0), ("w", 0)]⟩
    outputs := ⟨[("z", 3)]⟩ }

theorem assembled_overtakenInput : overtakenInput.Assembled := by
  have hcreate : Graph.create "a" 1 ⟨0⟩ = .ok (.blank "a" 1 ⟨0⟩) := rfl
  have h₁ := (Assembled.create hcreate).extend ⟨[0]⟩ (.input "x" .raw) [] rfl (by simp) rfl
  have h₂ := h₁.extend ⟨[1]⟩ .negate [0] rfl (by decide) trivial
  have h₃ := h₂.extend ⟨[2]⟩ (.constant (.integers [300])) [] rfl (by simp) trivial
  have h₄ := h₃.extend ⟨[3]⟩ (.output "z") [1] rfl (by decide) rfl
  exact h₄.extend ⟨[0]⟩ (.input "w" .raw) [] rfl (by simp) rfl

theorem acyclic_overtakenInput : overtakenInput.Acyclic := by
  refine acyclic_of_rank (·.id) fun p q h => ?_
  obtain ⟨e, he, rfl, rfl⟩ := h
  revert e
  decide

/-- A call that changes a graph. Builders make a node, with the operation they are named for. -/
inductive Call where
  | make (op : Operation) (operands : List NodeId)
  | constant (value : Constant)
  | replace (old new : NodeId)
  | removeDead

namespace Call

def run (g : Graph) : Call → Allocating GraphError Graph
  | make op operands => do return (← g.makeNode op operands).2
  | constant value => do return (← g.constant value).2
  | replace old new => do return (← liftM (g.replaceUses old new)).2
  | removeDead => return g.removeDead.2

/-- A call that fails leaves the graph as it was, though it may use up an id. -/
def apply (s : Graph × IdCounters) (call : Call) : Graph × IdCounters :=
  let (result, counters) := (call.run s.1).run.run s.2
  (result.toOption.getD s.1, counters)

def Safe (g : Graph) : Call → Prop
  | replace old new => g.Avoids old new
  | _ => True

end Call

def after (s : Graph × IdCounters) (calls : List Call) : Graph × IdCounters :=
  calls.foldl Call.apply s

def SafeAlong (s : Graph × IdCounters) (calls : List Call) : Prop :=
  ∀ done call, done ++ [call] <+: calls → call.Safe (after s done).1

theorem safeAlong_cons (s : Graph × IdCounters) (call : Call) (calls : List Call) :
    SafeAlong s (call :: calls) ↔ call.Safe s.1 ∧ SafeAlong (call.apply s) calls := by
  constructor
  · intro h
    refine ⟨h [] call (by simp), fun done next hbegins => ?_⟩
    exact h (call :: done) next (by simpa using hbegins)
  · rintro ⟨hfirst, hrest⟩ done next hbegins
    cases done with
    | nil =>
      obtain ⟨rfl, -⟩ := List.cons_prefix_cons.mp hbegins
      exact hfirst
    | cons first done =>
      obtain ⟨rfl, htail⟩ := List.cons_prefix_cons.mp hbegins
      exact hrest done next htail

theorem safeAlong_nil (s : Graph × IdCounters) : SafeAlong s [] := by
  intro done call hbegins
  simp at hbegins

theorem after_concat (s : Graph × IdCounters) (done : List Call) (call : Call) :
    after s (done ++ [call]) = call.apply (after s done) := by
  simp [after]

variable {s : Graph × IdCounters} {call : Call} {calls : List Call}

theorem Call.apply_of_runs {r : Except GraphError Graph} {c : IdCounters}
    (h : Runs (call.run s.1) s.2 r c) : call.apply s = (r.toOption.getD s.1, c) := by
  rw [apply, h]

/-- What a call can lead to: nothing but perhaps the loss of an id, a node, a replacement or a
removal. -/
theorem Call.apply_cases {P : Graph × IdCounters → Prop} (s : Graph × IdCounters) (call : Call)
    (same : ∀ c, c = s.2 ∨ c = s.2.set s.1.space (s.2.peek s.1.space).next → P (s.1, c))
    (make : ∀ op operands id g c, Runs (s.1.makeNode op operands) s.2 (.ok (id, g)) c → P (g, c))
    (replace : ∀ old new n g, call = .replace old new →
      s.1.replaceUses old new = .ok (n, g) → P (g, s.2))
    (removeDead : P (s.1.removeDead.2, s.2)) : P (call.apply s) := by
  have hmade {op : Operation} {operands : List NodeId} {r : Except GraphError Graph}
      {c : IdCounters}
      (h : Runs (do return (← s.1.makeNode op operands).2 : Allocating GraphError Graph) s.2 r c) :
      P (r.toOption.getD s.1, c) := by
    rcases runs_bind h with ⟨e, he, rfl⟩ | ⟨⟨id, g⟩, _, hm, hr⟩
    · exact same c (makeNode_counters he)
    · obtain ⟨rfl, rfl⟩ := runs_pure.mp hr
      exact make op operands id g c hm
  obtain ⟨r, c, h⟩ := runs_exists (call.run s.1) s.2
  rw [apply_of_runs h]
  cases call with
  | make op operands => exact hmade h
  | constant value =>
    rcases runs_bind h with ⟨e, he, rfl⟩ | ⟨⟨id, g⟩, _, hm, hr⟩
    · rcases runs_constant he with ⟨_, -, rfl⟩ | hm
      · exact same _ (.inl rfl)
      · exact same c (makeNode_counters hm)
    · obtain ⟨rfl, rfl⟩ := runs_pure.mp hr
      rcases runs_constant hm with ⟨_, he, -⟩ | hm
      · cases he
      · exact make _ _ id g c hm
  | replace old new =>
    rcases runs_bind h with ⟨e, he, rfl⟩ | ⟨⟨n, g⟩, _, hu, hr⟩
    · obtain ⟨-, rfl⟩ := runs_liftM.mp he
      exact same _ (.inl rfl)
    · obtain ⟨rfl, rfl⟩ := runs_pure.mp hr
      obtain ⟨hu, hc⟩ := runs_liftM.mp hu
      exact hc ▸ replace old new n g rfl hu.symm
  | removeDead =>
    obtain ⟨rfl, rfl⟩ := runs_pure.mp h
    exact removeDead

theorem Sound.apply (h : s.1.Sound) (call : Call) : (call.apply s).1.Sound := by
  apply Call.apply_cases s call (P := fun t => t.1.Sound)
  · exact fun _ _ => h
  · intro op operands id g c hm
    obtain ⟨hlen, hin, -, -, -, rfl⟩ := makeNode_ok.mp hm
    exact (h.grow hlen hin).declare _ _
  · exact fun _ _ _ _ _ hu => h.replaceUses hu
  · exact h.removeDead

theorem Call.apply_replace {n : Nat} (h : s.1.replaceUses old new = .ok (n, g)) :
    (Call.replace old new).apply s = (g, s.2) := by
  apply apply_of_runs (r := .ok g)
  exact (runs_bind_of_ok (runs_liftM.mpr ⟨h.symm, rfl⟩)).mpr (runs_pure.mpr ⟨rfl, rfl⟩)

/-- The step of the invariant: from an acyclic graph only an unsafe replacement leads astray. -/
theorem Acyclic.apply_iff (ha : s.1.Acyclic) (h : s.1.Sound) (call : Call) :
    (call.apply s).1.Acyclic ↔ call.Safe s.1 := by
  constructor
  · intro happly
    cases call with
    | replace old new =>
      by_cases hin : old ∈ s.1.ids ∧ new ∈ s.1.ids
      · obtain ⟨hold, hnew⟩ := hin
        obtain ⟨n, g, hu⟩ := exists_replaceUses_ok hold hnew
        rw [Call.apply_replace hu] at happly
        exact (ha.replaceUses_iff hu).mp happly
      · exact h.avoids_of_not_mem (not_and_or.mp hin)
    | make | constant | removeDead => trivial
  · intro hsafe
    apply Call.apply_cases s call (P := fun t => t.1.Acyclic)
    · exact fun _ _ => ha
    · exact fun _ _ _ _ _ hm => ha.makeNode h hm
    · rintro old new n g rfl hu
      exact (ha.replaceUses_iff hu).mpr hsafe
    · exact ha.removeDead

theorem Sound.after (h : s.1.Sound) (calls : List Call) : (after s calls).1.Sound := by
  induction calls using List.reverseRecOn with
  | nil => exact h
  | append_singleton done call ih =>
    rw [after_concat]
    exact ih.apply call

theorem Sound.acyclic_after_iff (h : s.1.Sound) (ha : s.1.Acyclic) (calls : List Call) :
    (∀ done, done <+: calls → (Graph.after s done).1.Acyclic) ↔ SafeAlong s calls := by
  constructor
  · intro hall done call hbegins
    have hbefore := hall done ((List.prefix_append ..).trans hbegins)
    rw [← hbefore.apply_iff (h.after done) call, ← after_concat]
    exact hall _ hbegins
  · intro hsafe done hbegins
    induction done using List.reverseRecOn with
    | nil => exact ha
    | append_singleton done call ih =>
      have hbefore := ih ((List.prefix_append ..).trans hbegins)
      rw [after_concat, hbefore.apply_iff (h.after done)]
      exact hsafe done call hbegins

theorem hidden_of_apply (h : (call.apply s).1.hidden = []) : s.1.hidden = [] := by
  revert h
  apply Call.apply_cases s call (P := fun t => t.1.hidden = [] → s.1.hidden = [])
  · exact fun _ _ h => h
  · intro op operands id g c hm hv
    obtain ⟨-, -, -, -, -, rfl⟩ := makeNode_ok.mp hm
    rw [declare_hidden] at hv
    exact (grow_hidden_eq_nil.mp hv).2
  · intro old new n g _ hu hv
    obtain ⟨_, rfl⟩ := replaceUses_frame hu
    exact hv
  · exact fun h => h

theorem hidden_of_begins {done : List Call} (hbegins : done <+: calls)
    (h : (after s calls).1.hidden = []) : (after s done).1.hidden = [] := by
  obtain ⟨rest, rfl⟩ := hbegins
  induction rest using List.reverseRecOn with
  | nil => rwa [List.append_nil] at h
  | append_singleton rest call ih =>
    rw [← List.append_assoc, after_concat] at h
    exact ih (hidden_of_apply h)

theorem Built.apply (h : Built s.1 s.2) (hc : s.2.peek s.1.space + 1 < NodeId.bound)
    (call : Call) :
    Built (call.apply s).1 (call.apply s).2 ∧ (call.apply s).1.space = s.1.space ∧
      (call.apply s).2.peek s.1.space ≤ s.2.peek s.1.space + 1 := by
  have hnext : (s.2.set s.1.space (s.2.peek s.1.space).next).peek s.1.space =
      s.2.peek s.1.space + 1 := by
    rw [IdCounters.peek_set h.space_lt, IdCounters.next_of_lt hc]
  apply Call.apply_cases s call (P := fun t => Built t.1 t.2 ∧ t.1.space = s.1.space ∧
    t.2.peek s.1.space ≤ s.2.peek s.1.space + 1)
  · rintro c (rfl | rfl)
    · exact ⟨h, rfl, Nat.le_succ _⟩
    · refine ⟨h.advance (by simp) ?_, rfl, hnext.le⟩
      rw [hnext]
      exact Nat.le_succ _
  · intro op operands id g c hm
    refine ⟨h.makeNode hc hm, ?_⟩
    obtain ⟨-, -, -, rfl, rfl, rfl⟩ := makeNode_ok.mp hm
    simp only [declare_space, grow_space]
    exact ⟨trivial, hnext.le⟩
  · intro old new n g _ hu
    refine ⟨h.replaceUses hu, ?_⟩
    obtain ⟨_, rfl⟩ := replaceUses_frame hu
    exact ⟨rfl, Nat.le_succ _⟩
  · exact ⟨h.removeDead, rfl, Nat.le_succ _⟩

/-- Calls use up one id each at most, so ids are not handed out twice before the counter turns. -/
theorem Built.after (h : Built s.1 s.2)
    (hroom : s.2.peek s.1.space + calls.length < NodeId.bound) :
    Built (after s calls).1 (after s calls).2 := by
  suffices Built (Graph.after s calls).1 (Graph.after s calls).2 ∧
      (Graph.after s calls).1.space = s.1.space ∧
      (Graph.after s calls).2.peek s.1.space ≤ s.2.peek s.1.space + calls.length from this.1
  induction calls using List.reverseRecOn with
  | nil => exact ⟨h, rfl, Nat.le_refl _⟩
  | append_singleton done call ih =>
    rw [List.length_append, List.length_singleton] at hroom ⊢
    obtain ⟨hbuilt, hspace, hpeek⟩ := ih (Nat.lt_of_succ_lt hroom)
    rw [← hspace] at hpeek hroom ⊢
    obtain ⟨hbuilt', hspace', hpeek'⟩ :=
      hbuilt.apply (Nat.lt_of_le_of_lt (Nat.succ_le_succ hpeek) hroom) call
    rw [after_concat]
    exact ⟨hbuilt', hspace', hpeek'.trans (Nat.succ_le_succ hpeek)⟩

/-- From an empty graph on, all graphs are acyclic as long as every replacement is safe where it
is made, and no longer. As long as no id is handed out twice, that is when they can be ordered. -/
theorem acyclic_along_iff {name : String} {width : Nat} {space : IdSpace} {g : Graph}
    (h : Graph.create name width space = .ok g) (c : IdCounters) (calls : List Call) :
    ((∀ done, done <+: calls → (after (g, c) done).1.Acyclic) ↔ SafeAlong (g, c) calls) ∧
      ((after (g, c) calls).1.hidden = [] →
        ((∀ done, done <+: calls → ∃ order, (after (g, c) done).1.forwardOrder = .ok order) ↔
          SafeAlong (g, c) calls)) := by
  obtain ⟨-, rfl⟩ := create_ok.mp h
  have hsound : (blank name width space).Sound := .blank ..
  have halong := hsound.acyclic_after_iff (s := (blank name width space, c))
    (acyclic_blank name width space) calls
  refine ⟨halong, fun hv => ?_⟩
  rw [← halong]
  refine forall_congr' fun done => forall_congr' fun hbegins => ?_
  exact (hsound.after (s := (blank name width space, c)) done).forwardOrder_iff_acyclic
    (hidden_of_begins hbegins hv)

/-- An input, its negation, the negation of `below`, and a replacement of the input. -/
def negations (below new : NodeId) : List Call :=
  [.make (.input "x" .cipher) [], .make .negate [0], .make .negate [below], .replace 0 new]

/-- A negation takes the place of what it negates, for another negation. -/
theorem acyclic_along_iff_builtOn :
    Graph.create "g" 1 ⟨0⟩ = .ok (blank "g" 1 ⟨0⟩) ∧
      ∀ done, done <+: negations 0 1 → (after (blank "g" 1 ⟨0⟩, ⟨[0]⟩) done).1.Acyclic ∧
        ∃ order, (after (blank "g" 1 ⟨0⟩, ⟨[0]⟩) done).1.forwardOrder = .ok order := by
  have hsafe : SafeAlong (blank "g" 1 ⟨0⟩, ⟨[0]⟩) (negations 0 1) := by
    simp only [negations, safeAlong_cons, Call.Safe, true_and]
    refine ⟨?_, safeAlong_nil _⟩
    generalize hg : (Call.apply _ _).1 = g
    have hedges : g.edges = [⟨⟨0, 0⟩, ⟨2, 0⟩, 0⟩, ⟨⟨0, 0⟩, ⟨1, 0⟩, 0⟩] := by
      rw [← hg]
      rfl
    -- Only the input is read, so that no consumer leads to another node.
    rintro q ⟨⟨e, he, -, rfl⟩, hne⟩ hpath
    have hlast : ∀ e ∈ g.edges, e.source.id = 0 := by simp [hedges]
    rcases ReflTransGen.cases_head hpath with heq | ⟨r, ⟨f, hf, hsource, -⟩, -⟩
    · exact hne heq
    · have hzero := hlast f hf
      rw [hsource] at hzero
      simp [hedges] at he
      rcases he with rfl | rfl <;> cases hzero
  have hvisible : (after (blank "g" 1 ⟨0⟩, ⟨[0]⟩) (negations 0 1)).1.hidden = [] := rfl
  obtain ⟨hacyclic, horder⟩ := acyclic_along_iff (Eq.refl (Graph.create "g" 1 ⟨0⟩)) ⟨[0]⟩
    (negations 0 1)
  exact ⟨rfl, fun done hbegins =>
    ⟨hacyclic.mpr hsafe done hbegins, (horder hvisible).mpr hsafe done hbegins⟩⟩

/-- The upper negation takes the place of the input for the lower one, which it is built on. -/
theorem cyclic_of_replace_indirect :
    (after (blank "g" 1 ⟨0⟩, ⟨[0]⟩) (negations 1 2)).1.hidden = [] ∧
      (after (blank "g" 1 ⟨0⟩, ⟨[0]⟩) (negations 1 2)).1.forwardOrder =
        .error (.operandCycle 1) ∧
      ¬(after (blank "g" 1 ⟨0⟩, ⟨[0]⟩) (negations 1 2)).1.Acyclic := by
  have hvisible : (after (blank "g" 1 ⟨0⟩, ⟨[0]⟩) (negations 1 2)).1.hidden = [] := rfl
  have hcycle : (after (blank "g" 1 ⟨0⟩, ⟨[0]⟩) (negations 1 2)).1.forwardOrder =
      .error (.operandCycle 1) := by with_unfolding_all rfl
  have hsound : (after (blank "g" 1 ⟨0⟩, ⟨[0]⟩) (negations 1 2)).1.Sound :=
    Sound.after (s := (blank "g" 1 ⟨0⟩, ⟨[0]⟩)) (.blank ..) _
  refine ⟨hvisible, hcycle, fun hacyclic => ?_⟩
  obtain ⟨order, horder⟩ := (hsound.forwardOrder_iff_acyclic hvisible).mpr hacyclic
  rw [hcycle] at horder
  cases horder

end CipherGraph.Graph

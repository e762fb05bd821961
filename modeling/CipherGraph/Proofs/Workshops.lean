import CipherGraph.Proofs.Acyclicity
import CipherGraph.Proofs.GroupIds

/-! # Workshops

Graphs on one space are worked on at the same time, in any order, and draw their ids from one
counter. Positions count on where the counter comes round, so that what is handed out is known
whatever happens: the positions that follow the first, modulo the number of ids. Up to that number
all ids handed out are new.
-/

namespace CipherGraph

theorem NodeId.next_mod (n : Nat) : NodeId.next (n % NodeId.bound) = (n + 1) % NodeId.bound := by
  rw [NodeId.next, Nat.mod_add_mod]

/-- Graphs that are worked on at the same time, with the counters. -/
structure Workshop where
  graphs : List Graph
  counters : IdCounters

namespace Workshop

/-- What can happen to graphs on a space, with the ids that are handed out. Ids may also be drawn by
others, or lost. -/
inductive Event (space : IdSpace) : Workshop → List NodeId → Workshop → Prop where
  | created {w : Workshop} {name : String} {width : Nat} {g : Graph}
      (h : Graph.create name width space = .ok g) :
      Event space w [] { w with graphs := w.graphs ++ [g] }
  | copied {w : Workshop} {g : Graph} (hg : g ∈ w.graphs) :
      Event space w [] { w with graphs := w.graphs ++ [g] }
  | drawn (w : Workshop) :
      Event space w [w.counters.peek space]
        { w with counters := w.counters.set space (w.counters.peek space).next }
  | made {w : Workshop} {i : Nat} {g g' : Graph} {op : Operation} {operands : List NodeId}
      {id : NodeId} {c' : IdCounters} (hg : w.graphs[i]? = some g)
      (h : Runs (g.makeNode op operands) w.counters (.ok (id, g')) c') :
      Event space w [id] ⟨w.graphs.set i g', c'⟩
  | replaced {w : Workshop} {i : Nat} {g g' : Graph} {old new : NodeId} {n : Nat}
      (hg : w.graphs[i]? = some g) (h : g.replaceUses old new = .ok (n, g')) :
      Event space w [] { w with graphs := w.graphs.set i g' }
  | cleaned {w : Workshop} {i : Nat} {g : Graph} (hg : w.graphs[i]? = some g) :
      Event space w [] { w with graphs := w.graphs.set i g.removeDead.2 }

/-- Any number of events, with all ids that are handed out, in order. -/
inductive Course (space : IdSpace) : Workshop → List NodeId → Workshop → Prop where
  | refl (w : Workshop) : Course space w [] w
  | tail {w w₁ w' : Workshop} {ids new : List NodeId} (h : Course space w ids w₁)
      (he : Event space w₁ new w') : Course space w (ids ++ new) w'

variable {space : IdSpace} {w w₁ w' : Workshop} {ids new : List NodeId} {n limit : Nat}

theorem Course.single (he : Event space w new w') : Course space w new w' := .tail (.refl w) he

theorem Course.trans (h : Course space w ids w₁) (h' : Course space w₁ new w') :
    Course space w (ids ++ new) w' := by
  induction h' with
  | refl => rwa [List.append_nil]
  | tail _ he ih =>
    rw [← List.append_assoc]
    exact ih.tail he

/-- Every graph is on the space, whose counter has come to this position. -/
structure At (space : IdSpace) (w : Workshop) (n : Nat) : Prop where
  key : space.key < w.counters.next.length
  peek : w.counters.peek space = n % NodeId.bound
  graphs : ∀ g ∈ w.graphs, g.space = space ∧ g.Reachable

/-- The ids at the positions that follow one another from here. -/
def handedOut (n k : Nat) : List NodeId := (List.range' n k).map (· % NodeId.bound)

theorem handedOut_append (n k l : Nat) :
    handedOut n k ++ handedOut (n + k) l = handedOut n (k + l) := by
  rw [handedOut, handedOut, handedOut, ← List.map_append, List.range'_append_1]

theorem handedOut_of_le {k : Nat} (h : n + k ≤ NodeId.bound) : handedOut n k = List.range' n k := by
  refine (List.map_congr_left fun i hi => Nat.mod_eq_of_lt ?_).trans (List.map_id' _)
  rw [List.mem_range'_1] at hi
  omega

theorem pairwise_handedOut {k : Nat} (hn : n < NodeId.bound) :
    (handedOut n k).Pairwise (· < ·) ↔ n + k ≤ NodeId.bound := by
  constructor
  · intro h
    by_contra hround
    rw [Nat.not_le] at hround
    -- The last id of all is followed by zero.
    obtain ⟨m, hm⟩ : ∃ m, n + m = NodeId.bound := ⟨_, Nat.add_sub_cancel' (Nat.le_of_lt hn)⟩
    have hlast : m < (handedOut n k).length := by
      rw [handedOut, List.length_map, List.length_range']
      omega
    have hlt := List.pairwise_iff_getElem.mp h (m - 1) m (by omega) hlast (by omega)
    simp only [handedOut, List.getElem_map, List.getElem_range', Nat.one_mul, hm,
      Nat.mod_self] at hlt
    exact absurd hlt (Nat.not_lt_zero _)
  · intro h
    rw [handedOut_of_le h]
    exact List.pairwise_lt_range'

theorem At.event (h : w.At space n) (he : Event space w new w') :
    w'.At space (n + new.length) ∧ new = handedOut n new.length := by
  have hmoved : (w.counters.set space (w.counters.peek space).next).peek space =
      (n + 1) % NodeId.bound := by
    rw [IdCounters.peek_set h.key, h.peek, NodeId.next_mod]
  have hone : [n % NodeId.bound] = handedOut n 1 := rfl
  -- A graph takes the place of another one on the same space.
  have hset {i : Nat} {g g' : Graph} (hg : w.graphs[i]? = some g)
      (hg' : g'.space = g.space ∧ (g.Reachable → g'.Reachable)) :
      ∀ k ∈ w.graphs.set i g', k.space = space ∧ k.Reachable := by
    intro k hk
    rcases List.mem_or_eq_of_mem_set hk with hk | rfl
    · exact h.graphs k hk
    · obtain ⟨hspace, hreachable⟩ := h.graphs g (List.mem_of_getElem? hg)
      exact ⟨hg'.1.trans hspace, hg'.2 hreachable⟩
  cases he with
  | created hcreate =>
    refine ⟨⟨h.key, h.peek, fun k hk => ?_⟩, rfl⟩
    rcases List.mem_append.mp hk with hk | hk
    · exact h.graphs k hk
    · cases List.mem_singleton.mp hk
      refine ⟨?_, .create hcreate⟩
      obtain ⟨-, rfl⟩ := Graph.create_ok.mp hcreate
      rfl
  | copied hg =>
    refine ⟨⟨h.key, h.peek, fun k hk => ?_⟩, rfl⟩
    rcases List.mem_append.mp hk with hk | hk
    · exact h.graphs k hk
    · exact List.mem_singleton.mp hk ▸ h.graphs _ hg
  | drawn =>
    refine ⟨⟨?_, hmoved, h.graphs⟩, by rw [h.peek]; rfl⟩
    rw [IdCounters.length_set]
    exact h.key
  | @made i g g' op operands id c' hg hmake =>
    obtain ⟨hspace, -⟩ := h.graphs g (List.mem_of_getElem? hg)
    obtain ⟨-, -, -, hid, hc', hg'⟩ := Graph.makeNode_ok.mp hmake
    rw [hspace] at hid hc'
    rw [hid] at hc'
    refine ⟨⟨?_, ?_, hset hg ⟨?_, (.makeNode · hmake)⟩⟩, by rw [hid, h.peek]; rfl⟩
    · rw [hc', IdCounters.length_set]
      exact h.key
    · rw [hc']
      exact hmoved
    · rw [hg', Graph.declare_space, Graph.grow_space]
  | @replaced i g g' old new n' hg hreplace =>
    refine ⟨⟨h.key, h.peek, hset hg ⟨?_, (.replaceUses · hreplace)⟩⟩, rfl⟩
    obtain ⟨_, rfl⟩ := Graph.replaceUses_frame hreplace
    rfl
  | @cleaned i g hg =>
    have hkept : g.removeDead.2.space = g.space := rfl
    exact ⟨⟨h.key, h.peek, hset hg ⟨hkept, (.removeDead ·)⟩⟩, rfl⟩

theorem At.course (h : w.At space n) (hc : Course space w ids w') :
    w'.At space (n + ids.length) ∧ ids = handedOut n ids.length := by
  induction hc with
  | refl => exact ⟨h, rfl⟩
  | @tail _ _ ids new _ he ih =>
    obtain ⟨hat, hids⟩ := ih
    obtain ⟨hat', hnew⟩ := hat.event he
    rw [List.length_append, ← Nat.add_assoc]
    refine ⟨hat', ?_⟩
    rw [← handedOut_append, ← hids, ← hnew]

/-- What is handed out depends on the position and the number only. -/
theorem At.ids_eq {w₂ w₃ : Workshop} (h : w.At space n) (hc : Course space w ids w')
    (h₂ : w₂.At space n) (hc₂ : Course space w₂ new w₃) (hlength : ids.length = new.length) :
    ids = new := by
  rw [(h.course hc).2, (h₂.course hc₂).2, hlength]

theorem At.peek_event (h : w.At space n) (he : Event space w new w') {other : IdSpace}
    (hother : other ≠ space) : w'.counters.peek other = w.counters.peek other := by
  cases he with
  | created | copied | replaced | cleaned => rfl
  | drawn => exact IdCounters.peek_set_of_ne hother
  | made hg hmake =>
    obtain ⟨hspace, -⟩ := h.graphs _ (List.mem_of_getElem? hg)
    obtain ⟨-, -, -, -, rfl, -⟩ := Graph.makeNode_ok.mp hmake
    exact IdCounters.peek_set_of_ne (hspace ▸ hother)

theorem At.peek_course (h : w.At space n) (hc : Course space w ids w') {other : IdSpace}
    (hother : other ≠ space) : w'.counters.peek other = w.counters.peek other := by
  induction hc with
  | refl => rfl
  | tail hc he ih => exact ((h.course hc).1.peek_event he hother).trans ih

theorem At.peek_of_lt (h : w.At space n) (hn : n < NodeId.bound) : w.counters.peek space = n :=
  h.peek.trans (Nat.mod_eq_of_lt hn)

/-- The node is in one of the graphs. -/
def Has (w : Workshop) (m : Node) : Prop := ∃ g ∈ w.graphs, m ∈ g.nodes

theorem has_of_append {g : Graph} {m : Node} {graphs : List Graph} {c : IdCounters}
    (h : Workshop.Has ⟨graphs ++ [g], c⟩ m) : (∃ k ∈ graphs, m ∈ k.nodes) ∨ m ∈ g.nodes := by
  obtain ⟨k, hk, hm⟩ := h
  rcases List.mem_append.mp hk with hk | hk
  · exact .inl ⟨k, hk, hm⟩
  · exact .inr (List.mem_singleton.mp hk ▸ hm)

theorem has_of_set {i : Nat} {g' : Graph} {m : Node} {c : IdCounters}
    (h : Workshop.Has ⟨w.graphs.set i g', c⟩ m) : w.Has m ∨ m ∈ g'.nodes := by
  obtain ⟨k, hk, hm⟩ := h
  rcases List.mem_or_eq_of_mem_set hk with hk | rfl
  · exact .inl ⟨k, hk, hm⟩
  · exact .inr hm

/-- An event makes one node at most, with the id that it hands out. -/
theorem At.made (h : w.At space n) (he : Event space w new w') :
    ∃ made : Option Node, (∀ m ∈ made, new = [m.id]) ∧ ∀ m, w'.Has m → w.Has m ∨ made = some m := by
  cases he with
  | created hcreate =>
    refine ⟨none, nofun, fun m hm => .inl ((has_of_append hm).resolve_right ?_)⟩
    obtain ⟨-, rfl⟩ := Graph.create_ok.mp hcreate
    exact List.not_mem_nil
  | copied hg =>
    exact ⟨none, nofun, fun m hm => .inl ((has_of_append hm).elim id fun hm => ⟨_, hg, hm⟩)⟩
  | drawn => exact ⟨none, nofun, fun m hm => .inl hm⟩
  | @made i g g' op operands id c' hg hmake =>
    have hmem := List.mem_of_getElem? hg
    refine ⟨some ⟨id, op⟩, by simp, fun m hm => ?_⟩
    rcases has_of_set hm with hm | hm
    · exact .inl hm
    · obtain ⟨-, -, -, -, -, rfl⟩ := Graph.makeNode_ok.mp hmake
      rw [Graph.declare_nodes, Graph.grow_nodes,
        Graph.mem_placeNode (h.graphs g hmem).2.sound.ascending] at hm
      rcases hm with rfl | ⟨hm, -⟩
      · exact .inr rfl
      · exact .inl ⟨g, hmem, hm⟩
  | replaced hg hreplace =>
    refine ⟨none, nofun, fun m hm => .inl ((has_of_set hm).elim id fun hm => ?_)⟩
    obtain ⟨_, rfl⟩ := Graph.replaceUses_frame hreplace
    exact ⟨_, List.mem_of_getElem? hg, hm⟩
  | cleaned hg =>
    exact ⟨none, nofun, fun m hm => .inl ((has_of_set hm).elim id fun hm =>
      ⟨_, List.mem_of_getElem? hg, (Graph.mem_nodes_removeDead.mp hm).1⟩)⟩

theorem At.has_course (h : w.At space n) (hc : Course space w ids w') {m : Node}
    (hm : w'.Has m) : w.Has m ∨ m.id ∈ ids := by
  induction hc with
  | refl => exact .inl hm
  | tail hc he ih =>
    obtain ⟨made, hid, hhas⟩ := (h.course hc).1.made he
    rcases hhas m hm with hm | rfl
    · exact (ih hm).imp_right (List.mem_append_left _)
    · refine .inr (List.mem_append_right _ ?_)
      rw [hid m rfl]
      exact List.mem_cons_self

/-- The ids of all nodes are below the position, or not below some limit. -/
structure Clear (space : IdSpace) (limit : Nat) (w : Workshop) (n : Nat) : Prop where
  at_position : w.At space n
  ids : ∀ m, w.Has m → m.id < n ∨ limit ≤ m.id

def Agree (w : Workshop) : Prop := ∀ m m', w.Has m → w.Has m' → m.id = m'.id → m = m'

/-- No graph hides a node that was not hidden in one of these. -/
def HidesNoMore (w w' : Workshop) : Prop :=
  ∀ g' ∈ w'.graphs, g'.hidden = [] ∨ ∃ g ∈ w.graphs, g'.hidden = g.hidden

theorem HidesNoMore.trans (h : w.HidesNoMore w₁) (h' : w₁.HidesNoMore w') : w.HidesNoMore w' := by
  intro g' hg'
  rcases h' g' hg' with hnil | ⟨g, hg, heq⟩
  · exact .inl hnil
  · rw [heq]
    exact h g hg

section

variable (h : w.Clear space limit n) (hlimit : limit ≤ NodeId.bound)

include h hlimit

theorem Clear.fresh (hn : n < limit) {m : Node} (hm : w.Has m) :
    m.id ≠ w.counters.peek space := by
  rw [h.at_position.peek_of_lt (Nat.lt_of_lt_of_le hn hlimit)]
  rcases h.ids m hm with hlt | hle
  · exact Nat.ne_of_lt hlt
  · exact Nat.ne_of_gt (Nat.lt_of_lt_of_le hn hle)

theorem Clear.hidesNoMore (he : Event space w new w') (hroom : n + new.length ≤ limit) :
    w.HidesNoMore w' := by
  have hkept : w.HidesNoMore w := fun k hk => .inr ⟨k, hk, rfl⟩
  have hset {i : Nat} {g g' : Graph} (hg : w.graphs[i]? = some g) (hhidden : g'.hidden = g.hidden)
      (c : IdCounters) : w.HidesNoMore ⟨w.graphs.set i g', c⟩ := by
    intro k hk
    rcases List.mem_or_eq_of_mem_set hk with hk | rfl
    · exact hkept k hk
    · exact .inr ⟨g, List.mem_of_getElem? hg, hhidden⟩
  cases he with
  | created hcreate =>
    intro k hk
    rcases List.mem_append.mp hk with hk | hk
    · exact hkept k hk
    · cases List.mem_singleton.mp hk
      obtain ⟨-, rfl⟩ := Graph.create_ok.mp hcreate
      exact .inl rfl
  | copied hg =>
    intro k hk
    rcases List.mem_append.mp hk with hk | hk
    · exact hkept k hk
    · exact hkept k (List.mem_singleton.mp hk ▸ hg)
  | drawn => exact hkept
  | @made i g g' op operands id c' hg hmake =>
    have hmem := List.mem_of_getElem? hg
    obtain ⟨-, -, -, hid, -, rfl⟩ := Graph.makeNode_ok.mp hmake
    rw [(h.at_position.graphs g hmem).1] at hid
    refine hset hg ?_ c'
    rw [Graph.declare_hidden, Graph.grow_hidden, if_neg]
    rw [Graph.contains_iff]
    intro hheld
    obtain ⟨op', hm⟩ := Graph.exists_node_of_mem_ids hheld
    exact h.fresh hlimit hroom ⟨g, hmem, hm⟩ hid
  | replaced hg hreplace =>
    refine hset hg ?_ _
    obtain ⟨_, rfl⟩ := Graph.replaceUses_frame hreplace
    rfl
  | @cleaned i g hg =>
    have hkept : g.removeDead.2.hidden = g.hidden := rfl
    exact hset hg hkept _

theorem Clear.event (he : Event space w new w') (hroom : n + new.length ≤ limit) :
    w'.Clear space limit (n + new.length) ∧ (w.Agree → w'.Agree) := by
  obtain ⟨hat, hnew⟩ := h.at_position.event he
  obtain ⟨made, hid, hhas⟩ := h.at_position.made he
  -- A node that is made has the id of the position, which no other node has.
  have hmade {m : Node} (hm : made = some m) : m.id = n ∧ n < limit ∧ new.length = 1 := by
    have hone := hid m hm
    rw [hone, List.length_singleton] at hroom hnew
    have heq : m.id = n % NodeId.bound := (List.cons.inj hnew).1
    rw [Nat.mod_eq_of_lt (by omega)] at heq
    exact ⟨heq, hroom, by rw [hone, List.length_singleton]⟩
  have hother {m m' : Node} (hm : made = some m) (hm' : w.Has m') : m'.id ≠ m.id := by
    obtain ⟨heq, hlt, -⟩ := hmade hm
    have hfresh := h.fresh hlimit hlt hm'
    rwa [h.at_position.peek_of_lt (Nat.lt_of_lt_of_le hlt hlimit), ← heq] at hfresh
  refine ⟨⟨hat, fun m hm => ?_⟩, fun hagree m m' hm hm' heq => ?_⟩
  · rcases hhas m hm with hm | hm
    · exact (h.ids m hm).imp_left fun hlt => Nat.lt_of_lt_of_le hlt (Nat.le_add_right _ _)
    · obtain ⟨heq, -, hone⟩ := hmade hm
      exact .inl (by rw [heq, hone]; exact Nat.lt_succ_self n)
  · rcases hhas m hm, hhas m' hm' with ⟨hm | hm, hm' | hm'⟩
    · exact hagree m m' hm hm' heq
    · exact absurd heq (hother hm' hm)
    · exact absurd heq.symm (hother hm hm')
    · exact Option.some.inj (hm.symm.trans hm')

/-- As long as the positions stay below the limit, courses hand out new ids and hide no node. -/
theorem Clear.course (hc : Course space w ids w') (hroom : n + ids.length ≤ limit) :
    w'.Clear space limit (n + ids.length) ∧ (w.Agree → w'.Agree) ∧ w.HidesNoMore w' := by
  induction hc with
  | refl => exact ⟨h, id, fun k hk => .inr ⟨k, hk, rfl⟩⟩
  | @tail _ _ ids new _ he ih =>
    rw [List.length_append, ← Nat.add_assoc] at hroom ⊢
    obtain ⟨hclear, hagree, hhides⟩ := ih (Nat.le_trans (Nat.le_add_right _ _) hroom)
    obtain ⟨hclear', hagree'⟩ := hclear.event hlimit he hroom
    exact ⟨hclear', hagree' ∘ hagree, hhides.trans (hclear.hidesNoMore hlimit he hroom)⟩

/-- What is handed out below the limit ascends, begins at the position and belongs to no node. -/
theorem Clear.ids_new (hc : Course space w ids w') (hroom : n + ids.length ≤ limit) :
    ids = List.range' n ids.length ∧ ∀ id ∈ ids, ∀ m, w.Has m → m.id ≠ id := by
  have hids := (h.at_position.course hc).2
  rw [handedOut_of_le (Nat.le_trans hroom hlimit)] at hids
  refine ⟨hids, fun id hid m hm => ?_⟩
  rw [hids, List.mem_range'_1] at hid
  rcases h.ids m hm with hlt | hle
  · exact Nat.ne_of_lt (Nat.lt_of_lt_of_le hlt hid.1)
  · exact Nat.ne_of_gt (Nat.lt_of_lt_of_le hid.2 (Nat.le_trans hroom hle))

end

/-- Graphs on one space whose counter is past all ids, except the last id of all. -/
structure Underway (space : IdSpace) (w : Workshop) : Prop where
  key : space.key < w.counters.next.length
  peek : w.counters.peek space < NodeId.bound
  graphs : ∀ g ∈ w.graphs, g.space = space ∧ g.Reachable ∧ g.Past w.counters

theorem Underway.at_position (h : w.Underway space) : w.At space (w.counters.peek space) where
  key := h.key
  peek := (Nat.mod_eq_of_lt h.peek).symm
  graphs g hg := ⟨(h.graphs g hg).1, (h.graphs g hg).2.1⟩

theorem Underway.clear (h : w.Underway space) :
    w.Clear space (NodeId.bound - 1) (w.counters.peek space) := by
  refine ⟨h.at_position, ?_⟩
  rintro m ⟨g, hg, hm⟩
  obtain ⟨hspace, -, hpast⟩ := h.graphs g hg
  by_cases hlast : m.id + 1 < NodeId.bound
  · exact .inl (hspace ▸ hpast.ids m.id (List.mem_map_of_mem hm) hlast)
  · exact .inr (Nat.sub_le_of_le_add (Nat.not_lt.mp hlast))

theorem Clear.underway (h : w.Clear space (NodeId.bound - 1) n) (hn : n < NodeId.bound) :
    w.Underway space := by
  obtain ⟨hkey, hpeek, hgraphs⟩ := h.at_position
  rw [Nat.mod_eq_of_lt hn] at hpeek
  refine ⟨hkey, hpeek ▸ hn, fun g hg => ?_⟩
  obtain ⟨hspace, hreachable⟩ := hgraphs g hg
  refine ⟨hspace, hreachable, hspace ▸ hkey, fun id hid hnext => ?_⟩
  obtain ⟨op, hm⟩ := Graph.exists_node_of_mem_ids hid
  rw [hspace, hpeek]
  rcases h.ids ⟨id, op⟩ ⟨g, hg, hm⟩ with hlt | hle
  · exact hlt
  · exact absurd (Nat.lt_sub_of_add_lt hnext) (Nat.not_lt.mpr hle)

theorem course_call (h : w.At space n) {i : Nat} {g : Graph} (hg : w.graphs[i]? = some g)
    (call : Graph.Call) :
    ∃ ids, ids.length ≤ 1 ∧ Course space w ids
      ⟨w.graphs.set i (call.apply (g, w.counters)).1, (call.apply (g, w.counters)).2⟩ := by
  have hspace := (h.graphs g (List.mem_of_getElem? hg)).1
  have hsame : w.graphs.set i g = w.graphs := by
    obtain ⟨hi, rfl⟩ := List.getElem?_eq_some_iff.mp hg
    exact List.set_getElem_self hi
  refine Graph.Call.apply_cases
    (P := fun s => ∃ ids, ids.length ≤ 1 ∧ Course space w ids ⟨w.graphs.set i s.1, s.2⟩)
    (g, w.counters) call ?_ ?_ ?_ ?_
  · rintro c (rfl | rfl)
    · exact ⟨[], Nat.zero_le _, by rw [hsame]; exact .refl w⟩
    · exact ⟨_, Nat.le_refl _, by rw [hsame, hspace]; exact .single (.drawn w)⟩
  · intro op operands id g' c hmake
    exact ⟨[id], Nat.le_refl _, .single (.made hg hmake)⟩
  · intro old new k g' _ hreplace
    exact ⟨[], Nat.zero_le _, .single (.replaced hg hreplace)⟩
  · exact ⟨[], Nat.zero_le _, .single (.cleaned hg)⟩

end Workshop

end CipherGraph

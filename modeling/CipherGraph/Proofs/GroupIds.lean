import CipherGraph.Proofs.Compilation

/-! # Ids in a group

The members of a group draw their ids from one counter, which stays past all of them. Two members
share an id only after the group has taken over a graph that was on its space already, since the
ids of such a graph are not compared.
-/

namespace CipherGraph

namespace IdCounters

variable {c c' c'' : IdCounters} {s s' : IdSpace} {id : NodeId}

/-- No counter has gone back, and none has been given up. -/
structure Later (c c' : IdCounters) : Prop where
  length : c.next.length ≤ c'.next.length
  peek : ∀ s, c.peek s ≤ c'.peek s

theorem Later.refl (c : IdCounters) : Later c c := ⟨Nat.le_refl _, fun _ => Nat.le_refl _⟩

theorem Later.trans (h : Later c c') (h' : Later c' c'') : Later c c'' :=
  ⟨Nat.le_trans h.length h'.length, fun s => Nat.le_trans (h.peek s) (h'.peek s)⟩

theorem peek_set_of_ne (h : s' ≠ s) : (c.set s id).peek s' = c.peek s' := by
  have hkey : s.key ≠ s'.key := fun heq => h (by cases s; cases s'; cases heq; rfl)
  simp [peek, set, List.getElem?_set_ne hkey]

theorem later_set (h : c.peek s ≤ id) : Later c (c.set s id) := by
  refine ⟨Nat.le_of_eq length_set.symm, fun s' => ?_⟩
  by_cases hs : s' = s
  · subst hs
    by_cases hkey : s'.key < c.next.length
    · rw [peek_set hkey]
      exact h
    · exact Nat.le_of_eq (by rw [set, List.set_eq_of_length_le (Nat.not_lt.mp hkey)])
  · exact Nat.le_of_eq (peek_set_of_ne hs).symm

theorem later_advance (c : IdCounters) (s : IdSpace) (id : NodeId) : Later c (c.advance s id) :=
  later_set (Nat.le_max_left _ _)

theorem le_peek_advance (h : s.key < c.next.length) : id ≤ (c.advance s id).peek s := by
  rw [advance, peek_set h]
  exact Nat.le_max_right _ _

end IdCounters

open IdCounters (Later)

namespace Graph

variable {g g' : Graph} {c c' : IdCounters}

/-- Builder calls and rewrites of a graph, with their results, while its counter does not wrap. -/
inductive Edit (g : Graph) (c : IdCounters) : Except GraphError Graph → IdCounters → Prop where
  | makeNode {op : Operation} {operands : List NodeId} {r : Except GraphError (NodeId × Graph)}
      {c' : IdCounters} (hc : c.peek g.space + 1 < NodeId.bound)
      (h : Runs (g.makeNode op operands) c r c') : Edit g c (r.map (·.2)) c'
  | constant {value : Constant} {r : Except GraphError (NodeId × Graph)} {c' : IdCounters}
      (hc : c.peek g.space + 1 < NodeId.bound) (h : Runs (g.constant value) c r c') :
      Edit g c (r.map (·.2)) c'
  | replaceUses (old new : NodeId) : Edit g c ((g.replaceUses old new).map (·.2)) c
  | removeDead : Edit g c (.ok g.removeDead.2) c

theorem makeNode_counters {op : Operation} {operands : List NodeId}
    {r : Except GraphError (NodeId × Graph)} (h : Runs (g.makeNode op operands) c r c') :
    c' = c ∨ c' = c.set g.space (c.peek g.space).next := by
  unfold Graph.makeNode at h
  split at h
  · exact .inl (runs_throw_bind.mp h).2
  · rcases runs_bind h with ⟨_, h, -⟩ | ⟨_, c₁, hchecks, hrest⟩
    · exact .inl (state_of_runs_forM_liftM h)
    · obtain rfl := state_of_runs_forM_liftM hchecks
      unfold Allocating.fresh at hrest
      dsimp only at hrest
      rw [bind_assoc, runs_get_bind, bind_assoc, runs_set_bind, pure_bind] at hrest
      rcases runs_bind hrest with ⟨_, h, -⟩ | ⟨_, _, h, hrest⟩
      · exact .inr (runs_liftM.mp h).2
      · rw [(runs_pure.mp hrest).2]
        exact .inr (runs_liftM.mp h).2

theorem runs_constant {value : Constant} {r : Except GraphError (NodeId × Graph)}
    (h : Runs (g.constant value) c r c') :
    (∃ e, r = .error e ∧ c' = c) ∨ Runs (g.makeNode (.constant value) []) c r c' := by
  unfold Graph.constant at h
  split at h
  · rcases runs_bind h with ⟨e, h, rfl⟩ | ⟨_, _, h, -⟩
    · exact .inl ⟨e, rfl, (runs_throw.mp h).2⟩
    · simp at h
  · exact .inr h

theorem Edit.later {r : Except GraphError Graph} (h : g.Edit c r c') : Later c c' := by
  have hmake (hc : c.peek g.space + 1 < NodeId.bound) {op : Operation} {operands : List NodeId}
      {r : Except GraphError (NodeId × Graph)} (h : Runs (g.makeNode op operands) c r c') :
      Later c c' := by
    rcases makeNode_counters h with rfl | rfl
    · exact .refl _
    · refine IdCounters.later_set ?_
      rw [IdCounters.next_of_lt hc]
      exact Nat.le_succ _
  cases h with
  | makeNode hc h => exact hmake hc h
  | constant hc h =>
    rcases runs_constant h with ⟨_, -, rfl⟩ | h
    · exact .refl _
    · exact hmake hc h
  | replaceUses | removeDead => exact .refl _

/-- A graph draws from the same counter as another, and has no ids but that graph's and some that
the counter has handed out since. -/
structure Draws (g : Graph) (c : IdCounters) (g' : Graph) (c' : IdCounters) : Prop where
  space : g'.space = g.space
  ids : ∀ id ∈ g'.ids, id ∈ g.ids ∨ c.peek g.space ≤ id ∧ id < c'.peek g.space

theorem draws_of_ids (hs : g'.space = g.space) (h : ∀ id ∈ g'.ids, id ∈ g.ids) :
    g.Draws c g' c' := ⟨hs, fun id hid => .inl (h id hid)⟩

theorem Edit.draws (he : g.Edit c (.ok g') c') (hspace : g.space.key < c.next.length) :
    g.Draws c g' c' := by
  have hmake (hc : c.peek g.space + 1 < NodeId.bound) {op : Operation} {operands : List NodeId}
      {r : Except GraphError (NodeId × Graph)} (hr : r.map (·.2) = .ok g')
      (h : Runs (g.makeNode op operands) c r c') : g.Draws c g' c' := by
    obtain _ | ⟨id, _⟩ := r <;> cases hr
    obtain ⟨-, -, -, rfl, rfl, rfl⟩ := makeNode_ok.mp h
    refine ⟨by rw [declare_space, grow_space], fun id hid => ?_⟩
    rw [ids, declare_nodes] at hid
    rcases mem_ids_grow.mp hid with rfl | hid
    · right
      rw [IdCounters.peek_set hspace, IdCounters.next_of_lt hc]
      exact ⟨Nat.le_refl _, Nat.lt_succ_self _⟩
    · exact .inl hid
  generalize hr : (Except.ok g' : Except GraphError Graph) = r at he
  cases he with
  | makeNode hc h => exact hmake hc hr.symm h
  | constant hc h =>
    rcases runs_constant h with ⟨_, rfl, -⟩ | h
    · cases hr
    · exact hmake hc hr.symm h
  | replaceUses old new =>
    cases hu : g.replaceUses old new with
    | error e =>
      rw [hu] at hr
      cases hr
    | ok replaced =>
      obtain ⟨n, replaced⟩ := replaced
      rw [hu] at hr
      cases hr
      have hids := ids_replaceUses hu
      obtain ⟨_, hframe⟩ := replaceUses_frame hu
      exact draws_of_ids (by rw [hframe]) fun id hid => hids ▸ hid
  | removeDead =>
    cases hr
    exact draws_of_ids rfl fun id hid => ids_removeDead_sublist.subset hid

structure Under (g : Graph) (c : IdCounters) : Prop where
  space : g.space.key < c.next.length
  ids : ∀ id ∈ g.ids, id < c.peek g.space

theorem Under.later (h : g.Under c) (hc : Later c c') : g.Under c' :=
  ⟨Nat.lt_of_lt_of_le h.space hc.length,
    fun id hid => Nat.lt_of_lt_of_le (h.ids id hid) (hc.peek _)⟩

theorem Under.edited (h : g.Under c) (he : g.Edit c (.ok g') c') : g'.Under c' := by
  have hlater := he.later
  obtain ⟨hspace, hids⟩ := he.draws h.space
  refine ⟨hspace ▸ Nat.lt_of_lt_of_le h.space hlater.length, fun id hid => ?_⟩
  rw [hspace]
  rcases hids id hid with hid | ⟨-, hlt⟩
  · exact (h.later hlater).ids id hid
  · exact hlt

theorem Under.rebind (h : g.Under c) {space : IdSpace} (hspace : space.key < c.next.length) :
    Under { g with space } (c.advance space (c.peek g.space)) :=
  ⟨Nat.lt_of_lt_of_le hspace (IdCounters.later_advance ..).length, fun id hid =>
    Nat.lt_of_lt_of_le (h.ids id hid) (IdCounters.le_peek_advance hspace)⟩

/-- The counter of a graph is past its ids, except the last id of all, which has none after it. -/
structure Past (g : Graph) (c : IdCounters) : Prop where
  space : g.space.key < c.next.length
  ids : ∀ id ∈ g.ids, id + 1 < NodeId.bound → id < c.peek g.space

theorem Under.addListed {nodes : List Node} (h : g.Under c)
    (hrun : Runs (g.addListed nodes) c (.ok g') c') :
    g'.Under c' ∧ Later c c' ∧ g'.space = g.space := by
  induction nodes generalizing g c with
  | nil =>
    obtain ⟨hg', rfl⟩ := runs_pure.mp hrun
    cases hg'
    exact ⟨h, .refl _, rfl⟩
  | cons node nodes ih =>
    obtain ⟨-, -, -, hrest⟩ := addListed_cons_ok.mp hrun
    have hlater := IdCounters.later_advance c g.space (node.id + 1)
    have hunder : ((g.declare node.id node.op).addNode node).Under
        (c.advance g.space (node.id + 1)) := by
      have hspace : ((g.declare node.id node.op).addNode node).space = g.space :=
        declare_space ..
      refine ⟨hspace ▸ (h.later hlater).space, fun k hk => ?_⟩
      rw [hspace]
      rw [Graph.ids, Graph.addNode, declare_nodes] at hk
      rcases mem_ids_placeNode.mp hk with rfl | hk
      · exact Nat.lt_of_lt_of_le (Nat.lt_succ_self _) (IdCounters.le_peek_advance h.space)
      · exact (h.later hlater).ids k hk
    obtain ⟨hg', hc', hspace⟩ := ih hunder hrest
    exact ⟨hg', hlater.trans hc', hspace.trans (declare_space ..)⟩

theorem under_ofParts {name : String} {width : Nat} {nodes : List Node}
    {operands : List (NodeId × Nat × NodeId)} {space : IdSpace}
    (hspace : space.key < c.next.length)
    (h : Runs (Graph.ofParts name width nodes operands space) c (.ok g) c') :
    g.Under c' ∧ Later c c' ∧ g.space = space := by
  obtain ⟨-, listed, hlisted, hlinked, -⟩ := ofParts_ok.mp h
  obtain ⟨-, rfl⟩ := addOperands_eq_ok.mp hlinked
  have hblank : (blank name width space).Under c := ⟨hspace, by simp [blank, ids]⟩
  obtain ⟨hunder, hlater, heq⟩ := hblank.addListed hlisted
  exact ⟨⟨hunder.space, hunder.ids⟩, hlater, heq⟩

/-- Graphs that any constructor makes on any space, worked on and moved to other spaces, while
others draw ids too and no counter wraps around. -/
inductive Drawn : Graph → IdCounters → Prop where
  | create {name : String} {width : Nat} {space : IdSpace} {g : Graph} {c : IdCounters}
      (h : Graph.create name width space = .ok g) (hspace : space.key < c.next.length) : Drawn g c
  | ofParts {name : String} {width : Nat} {nodes : List Node}
      {operands : List (NodeId × Nat × NodeId)} {space : IdSpace} {c c' : IdCounters} {g : Graph}
      (hspace : space.key < c.next.length)
      (h : Runs (Graph.ofParts name width nodes operands space) c (.ok g) c') : Drawn g c'
  | edited {g g' : Graph} {c c' : IdCounters} (hg : Drawn g c) (h : g.Edit c (.ok g') c') :
      Drawn g' c'
  | rebind {g : Graph} {c : IdCounters} {space : IdSpace} (hg : Drawn g c)
      (hspace : space.key < c.next.length) :
      Drawn { g with space } (c.advance space (c.peek g.space))
  | later {g : Graph} {c c' : IdCounters} (hg : Drawn g c) (hc : Later c c') : Drawn g c'

theorem Drawn.extend (h : g.Drawn c) (hc : c.peek g.space + 1 < NodeId.bound) (op : Operation)
    (operands : List NodeId) (hlen : operands.length = op.arity)
    (hin : ∀ o ∈ operands, o ∈ g.ids) (hfree : g.Declares op) :
    ((g.grow ⟨c.peek g.space, op⟩ operands).declare (c.peek g.space) op).Drawn
      (c.set g.space (c.peek g.space).next) :=
  .edited h (.makeNode hc (makeNode_ok.mpr ⟨hlen, hin, hfree, rfl, rfl, rfl⟩))

theorem Drawn.under (h : g.Drawn c) : g.Under c := by
  induction h with
  | create h hspace =>
    obtain ⟨-, rfl⟩ := create_ok.mp h
    exact ⟨hspace, by simp [blank, ids]⟩
  | ofParts hspace h => exact (under_ofParts hspace h).1
  | edited _ h ih => exact ih.edited h
  | rebind _ hspace ih => exact ih.rebind hspace
  | later _ hc ih => exact ih.later hc

end Graph

namespace Group

variable {gr gr' : Group} {g : Graph} {c c' : IdCounters} {past : List Group}
  {adopted : List (Group × Graph)}

/-- What an operation leaves of a group: the result, or the group as it was. -/
def settle (gr : Group) : Except GraphError Group → Group
  | .ok gr' => gr'
  | .error _ => gr

/-- Operations that take over no graph, with their results: new members, calls on members, and
whatever draws ids elsewhere. -/
inductive Step (gr : Group) (c : IdCounters) : Except GraphError Group → IdCounters → Prop where
  | newGraph (name : String) (width : Nat) : Step gr c (gr.newGraph name width) c
  | absent {name : String} {e : GraphError} (h : gr.member? name = .error e) :
    Step gr c (.error e) c
  | edited {name : String} {g : Graph} {r : Except GraphError Graph} {c' : IdCounters}
      (hg : gr.member? name = .ok g) (h : g.Edit c r c') :
      Step gr c (r.map fun g' => { gr with members := gr.members.insert name g' }) c'
  | elsewhere {c' : IdCounters} (hc : Later c c') : Step gr c (.ok gr) c'

/-- Sequences of operations on a group: the groups it has been, latest first, and the graphs it has
taken over, each with the group that took it. -/
inductive Course : List Group → List (Group × Graph) → Group → IdCounters → Prop where
  | create (name : String) {space : IdSpace} {c : IdCounters}
      (hspace : space.key < c.next.length) : Course [] [] (Group.create name space) c
  | step {past : List Group} {adopted : List (Group × Graph)} {gr : Group} {c c' : IdCounters}
      {r : Except GraphError Group} (h : Course past adopted gr c) (hs : gr.Step c r c') :
      Course (gr :: past) adopted (gr.settle r) c'
  | adopt {past : List Group} {adopted : List (Group × Graph)} {gr gr' : Group} {g : Graph}
      {c c' : IdCounters} (h : Course past adopted gr c) (hg : g.Drawn c)
      (hadd : Runs (gr.addGraph g) c (.ok gr') c') : Course (gr :: past) ((gr, g) :: adopted) gr' c'
  | refused {past : List Group} {adopted : List (Group × Graph)} {gr : Group} {g : Graph}
      {e : GraphError} {c c' : IdCounters} (h : Course past adopted gr c)
      (hadd : Runs (gr.addGraph g) c (.error e) c') : Course (gr :: past) adopted gr c'

/-- No id belongs to two members. -/
def Apart (gr : Group) : Prop :=
  ∀ name name' g g', name ≠ name' → gr.members.find? name = some g →
    gr.members.find? name' = some g' → ∀ id ∈ g.ids, id ∉ g'.ids

/-- No member has an id of the graph. -/
def Lacks (gr : Group) (g : Graph) : Prop :=
  ∀ name g', gr.members.find? name = some g' → ∀ id ∈ g.ids, id ∉ g'.ids

/-- Members are on the group's space, whose counter is past their ids. -/
structure Bounded (gr : Group) (c : IdCounters) : Prop where
  space : gr.space.key < c.next.length
  members : ∀ name g, gr.members.find? name = some g → g.space = gr.space ∧ g.Under c

theorem Bounded.later (h : gr.Bounded c) (hc : Later c c') : gr.Bounded c' :=
  ⟨Nat.lt_of_lt_of_le h.space hc.length, fun name g hg =>
    ⟨(h.members name g hg).1, (h.members name g hg).2.later hc⟩⟩

theorem Bounded.insert (h : gr.Bounded c) (hspace : g.space = gr.space) (hg : g.Under c)
    (name : String) : Bounded { gr with members := gr.members.insert name g } c :=
  ⟨h.space, OrderedMap.forall_find?_insert ⟨hspace, hg⟩ h.members⟩

theorem member?_eq_ok {name : String} :
    gr.member? name = .ok g ↔ gr.members.find? name = some g := by
  unfold member?
  cases gr.members.find? name <;> simp

theorem Step.later {r : Except GraphError Group} (h : gr.Step c r c') : Later c c' := by
  cases h with
  | newGraph | absent => exact .refl _
  | edited _ h => exact h.later
  | elsewhere hc => exact hc

/-- What a step makes of the group: a member is new and empty, or has worked on itself. -/
theorem Step.ok (h : gr.Step c (.ok gr') c') :
    gr' = gr ∨ ∃ name g', gr' = { gr with members := gr.members.insert name g' } ∧
      ((∃ width, Graph.create name width gr.space = .ok g') ∨
        ∃ g, gr.members.find? name = some g ∧ g.Edit c (.ok g') c') := by
  generalize hr : (Except.ok gr' : Except GraphError Group) = r at h
  cases h with
  | newGraph name width =>
    unfold Group.newGraph at hr
    split at hr
    · cases hr
    · obtain ⟨g, hg, heq⟩ := Except.bind_eq_ok.mp hr.symm
      cases heq
      exact .inr ⟨name, g, rfl, .inl ⟨width, hg⟩⟩
  | absent => cases hr
  | @edited name g r _ hg h =>
    cases r with
    | error e => cases hr
    | ok g' =>
      cases hr
      exact .inr ⟨name, g', rfl, .inr ⟨g, member?_eq_ok.mp hg, h⟩⟩
  | elsewhere =>
    cases hr
    exact .inl rfl

theorem Step.bounded (h : gr.Step c (.ok gr') c') (hgr : gr.Bounded c) : gr'.Bounded c' := by
  have hlater := hgr.later h.later
  obtain rfl | ⟨name, g', rfl, ⟨width, hnew⟩ | ⟨g, hg, hedit⟩⟩ := h.ok
  · exact hlater
  · obtain ⟨-, rfl⟩ := Graph.create_ok.mp hnew
    exact hlater.insert rfl ⟨hlater.space, by simp [Graph.blank, Graph.ids]⟩ name
  · obtain ⟨hspace, hunder⟩ := hgr.members name g hg
    exact hlater.insert ((hedit.draws hunder.space).space.trans hspace) (hunder.edited hedit) name

theorem Apart.insert (h : gr.Apart) {name : String}
    (hg : ∀ name' g', name' ≠ name → gr.members.find? name' = some g' → ∀ id ∈ g.ids, id ∉ g'.ids) :
    Apart { gr with members := gr.members.insert name g } := by
  intro a b ga gb hab ha hb id hida hidb
  rw [OrderedMap.find?_insert] at ha hb
  split at ha
  · next heq =>
    cases ha
    rw [if_neg (heq ▸ hab)] at hb
    exact hg b gb (fun h => hab (heq.symm.trans h.symm)) hb id hida hidb
  · split at hb
    · next hne heq =>
      cases hb
      exact hg a ga (fun h => hne h.symm) ha id hidb hida
    · exact h a b ga gb hab ha hb id hida hidb

theorem Step.apart (h : gr.Step c (.ok gr') c') (hgr : gr.Bounded c) (ha : gr.Apart) :
    gr'.Apart := by
  obtain rfl | ⟨name, g', rfl, ⟨width, hnew⟩ | ⟨g, hg, hedit⟩⟩ := h.ok
  · exact ha
  · obtain ⟨-, rfl⟩ := Graph.create_ok.mp hnew
    exact ha.insert (by simp [Graph.blank, Graph.ids])
  · obtain ⟨hspace, hunder⟩ := hgr.members name g hg
    refine ha.insert fun name' k hne hk id hid hidk => ?_
    rcases (hedit.draws hunder.space).ids id hid with hid | ⟨hle, -⟩
    · exact ha name name' g k (Ne.symm hne) hg hk id hid hidk
    · obtain ⟨hspacek, hunderk⟩ := hgr.members name' k hk
      have hlt := hunderk.ids id hidk
      rw [hspacek, ← hspace] at hlt
      exact Nat.lt_irrefl _ (Nat.lt_of_le_of_lt hle hlt)

theorem addGraph_error {e : GraphError} (h : Runs (gr.addGraph g) c (.error e) c') : c' = c := by
  unfold addGraph at h
  cases hname : gr.members.contains g.name with
  | true =>
    simp only [hname] at h
    exact (runs_throw.mp h).2
  | false =>
    cases hinput : gr.sharedInput? g with
    | some name =>
      simp only [hname, hinput] at h
      exact (runs_throw.mp h).2
    | none =>
      by_cases hspace : g.space = gr.space
      · simp only [hname, hinput, hspace] at h
        cases (runs_pure.mp h).1
      · cases hid : gr.sharedId? g with
        | some id =>
          simp only [hname, hinput, hspace, hid] at h
          exact (runs_throw.mp h).2
        | none =>
          simp only [hname, hinput, hspace, hid] at h
          rcases runs_bind_error.mp h with h | ⟨_, _, -, h⟩
          · cases (runs_liftM_state.mp h).1
          · cases (runs_pure.mp h).1

theorem lacks_of_sharedId? (h : gr.sharedId? g = none) : gr.Lacks g := by
  intro name g' hg' id hid hid'
  have hnone := List.find?_eq_none.mp h id hid
  refine hnone (List.any_eq_true.mpr ⟨g', ?_, Graph.contains_iff.mpr hid'⟩)
  exact List.mem_map_of_mem (f := (·.2)) (OrderedMap.mem_of_lookup hg')

theorem apart_insert_iff {name : String} (hname : gr.members.contains name = false) :
    Apart { gr with members := gr.members.insert name g } ↔ gr.Apart ∧ gr.Lacks g := by
  have hne {name' : String} {g' : Graph} (hg' : gr.members.find? name' = some g') :
      name ≠ name' := by
    rintro rfl
    rw [OrderedMap.contains, hg'] at hname
    cases hname
  have hkeep {name' : String} {g' : Graph} (hg' : gr.members.find? name' = some g') :
      (gr.members.insert name g).find? name' = some g' := by
    rw [OrderedMap.find?_insert_of_ne (hne hg'), hg']
  constructor
  · intro h
    exact ⟨fun a b ga gb hab ha hb => h a b ga gb hab (hkeep ha) (hkeep hb), fun name' g' hg' =>
      h name name' g g' (hne hg') OrderedMap.find?_insert_self (hkeep hg')⟩
  · rintro ⟨h, hlacks⟩
    exact h.insert fun name' g' _ hg' => hlacks name' g' hg'

theorem addGraph_bounded (h : Runs (gr.addGraph g) c (.ok gr') c') (hgr : gr.Bounded c)
    (hg : g.Under c) : gr'.Bounded c' := by
  obtain ⟨-, -, ⟨hspace, rfl, rfl⟩ | ⟨-, -, rfl, rfl⟩⟩ := addGraph_ok h
  · exact hgr.insert hspace hg g.name
  · exact (hgr.later (IdCounters.later_advance ..)).insert (g := { g with space := gr.space }) rfl
      (hg.rebind hgr.space) g.name

/-- A graph that joins shares no id exactly if its ids are new, as they are if they were
compared. -/
theorem addGraph_apart (h : Runs (gr.addGraph g) c (.ok gr') c') :
    gr'.Apart ↔ gr.Apart ∧ (g.space = gr.space → gr.Lacks g) := by
  obtain ⟨hname, -, ⟨hspace, -, rfl⟩ | ⟨hspace, hid, -, rfl⟩⟩ := addGraph_ok h
  · rw [apart_insert_iff hname]
    exact and_congr_right fun _ => ⟨fun h _ => h, fun h => h hspace⟩
  · rw [apart_insert_iff hname]
    exact and_congr_right fun _ => ⟨fun _ h => absurd h hspace, fun _ => lacks_of_sharedId? hid⟩

theorem Course.bounded (h : Course past adopted gr c) : gr.Bounded c := by
  induction h with
  | create _ hspace => exact ⟨hspace, fun _ _ h => nomatch h⟩
  | @step _ _ _ _ _ r _ hs ih =>
    cases r with
    | ok gr' => exact hs.bounded ih
    | error e => exact ih.later hs.later
  | adopt _ hg hadd ih => exact addGraph_bounded hadd ih hg.under
  | refused _ hadd ih => exact addGraph_error hadd ▸ ih

/-- The counter of a group stays past the ids of its members. No two members ever have an id in
common exactly if every graph that was taken over from the group's own space came with ids that no
member had. An operation that fails leaves the members as they are, and the counters too if it is
the taking over of a graph. -/
theorem Course.apart_iff (h : Course past adopted gr c) :
    (∀ name g, gr.members.find? name = some g → ∀ id ∈ g.ids, id < c.peek gr.space) ∧
    ((∀ k ∈ gr :: past, k.Apart) ↔ ∀ k g, (k, g) ∈ adopted → g.space = k.space → k.Lacks g) ∧
    (∀ e c', gr.Step c (.error e) c' → Course (gr :: past) adopted gr c') ∧
    ∀ g e c', Runs (gr.addGraph g) c (.error e) c' → c' = c ∧ Course (gr :: past) adopted gr c := by
  refine ⟨fun name g hg id hid => ?_, ?_, fun e c' hs => .step h hs, fun g e c' hadd => ?_⟩
  · obtain ⟨hspace, hunder⟩ := h.bounded.members name g hg
    exact hspace ▸ hunder.ids id hid
  · induction h with
    | create =>
      constructor
      · rintro - k g hmem
        cases hmem
      · rintro - k hk
        cases List.mem_singleton.mp hk
        exact fun _ _ _ _ _ h => nomatch h
    | @step past adopted gr c _ r h hs ih =>
      rw [List.forall_mem_cons, ← ih, and_iff_right_iff_imp]
      intro hall
      have ha := hall gr List.mem_cons_self
      cases r with
      | ok gr' => exact hs.apart h.bounded ha
      | error e => exact ha
    | @adopt past adopted gr gr' g c _ h hg hadd ih =>
      rw [List.forall_mem_cons, addGraph_apart hadd]
      simp only [List.mem_cons, Prod.mk.injEq]
      constructor
      · rintro ⟨⟨-, hlacks⟩, hall⟩ k g' (⟨rfl, rfl⟩ | hmem) hspace
        · exact hlacks hspace
        · exact ih.mp (by simpa using hall) k g' hmem hspace
      · intro hadopted
        have hall := ih.mpr fun k g' hmem => hadopted k g' (.inr hmem)
        exact ⟨⟨hall gr List.mem_cons_self, hadopted gr g (.inl ⟨rfl, rfl⟩)⟩, by simpa using hall⟩
    | @refused past adopted gr g e c c' h hadd ih =>
      rw [List.forall_mem_cons, ← ih, and_iff_right_iff_imp]
      exact fun hall => hall gr List.mem_cons_self
  · obtain rfl := addGraph_error hadd
    exact ⟨rfl, .refused h hadd⟩

def oneInput (name input : String) (id : NodeId) : Graph :=
  { Graph.blank name 1 ⟨0⟩ with
    nodes := [⟨id, .input input .raw⟩]
    inputs := ⟨[(input, id)]⟩ }

/-- A group of `a`, built by itself, and perhaps of others. -/
def withA (others : List (String × Graph)) : Group :=
  ⟨"gr", ⟨0⟩, ⟨("a", oneInput "a" "x" 0) :: others⟩⟩

theorem course_withA : Course [⟨"gr", ⟨0⟩, ⟨[("a", .blank "a" 1 ⟨0⟩)]⟩⟩, .create "gr" ⟨0⟩] []
    (withA []) ⟨[1]⟩ := by
  have hcreate : Course [] [] (Group.create "gr" ⟨0⟩) ⟨[0]⟩ := .create "gr" (by decide)
  have hnew := hcreate.step (.newGraph "a" 1)
  have hinput : Runs ((Graph.blank "a" 1 ⟨0⟩).makeNode (.input "x" .raw) []) ⟨[0]⟩
      (.ok (0, oneInput "a" "x" 0)) ⟨[1]⟩ := by
    unfold Runs
    rfl
  have hedit := Graph.Edit.makeNode (by decide) hinput
  exact hnew.step (@Step.edited _ _ "a" _ _ _ rfl hedit)

/-- A graph is restored on the group's space with an id of `a` and joins the group. -/
theorem course_not_apart : ∃ past adopted,
    Course past adopted (withA [("b", oneInput "b" "y" 0)]) ⟨[1]⟩ ∧
      ¬ (withA [("b", oneInput "b" "y" 0)]).Apart := by
  have hparts : Runs (Graph.ofParts "b" 1 [⟨0, .input "y" .raw⟩] [] ⟨0⟩) ⟨[1]⟩
      (.ok (oneInput "b" "y" 0)) ⟨[1]⟩ := by
    unfold Runs
    with_unfolding_all rfl
  have hadd : Runs ((withA []).addGraph (oneInput "b" "y" 0)) ⟨[1]⟩
      (.ok (withA [("b", oneInput "b" "y" 0)])) ⟨[1]⟩ := by
    unfold Runs
    rfl
  refine ⟨_, _, course_withA.adopt (.ofParts (by decide) hparts) hadd, fun h => ?_⟩
  exact h "a" "b" _ _ (by decide) rfl rfl 0 List.mem_cons_self List.mem_cons_self

theorem Course.apart_iff_fresh :
    ∃ past adopted, Course past adopted (withA [("b", oneInput "b" "y" 4)]) ⟨[5]⟩ ∧
      ∀ k ∈ withA [("b", oneInput "b" "y" 4)] :: past, k.Apart := by
  have hparts : Runs (Graph.ofParts "b" 1 [⟨4, .input "y" .raw⟩] [] ⟨0⟩) ⟨[1]⟩
      (.ok (oneInput "b" "y" 4)) ⟨[5]⟩ := by
    unfold Runs
    with_unfolding_all rfl
  have hadd : Runs ((withA []).addGraph (oneInput "b" "y" 4)) ⟨[5]⟩
      (.ok (withA [("b", oneInput "b" "y" 4)])) ⟨[5]⟩ := by
    unfold Runs
    rfl
  have hmoved : Course _ _ (withA []) ⟨[5]⟩ := course_withA.step
    (.elsewhere (IdCounters.later_set (s := ⟨0⟩) (by decide)))
  have hcourse := hmoved.adopt (.ofParts (by decide) hparts) hadd
  refine ⟨_, _, hcourse, ?_⟩
  obtain ⟨-, hiff, -⟩ := Course.apart_iff hcourse
  refine hiff.mpr fun k g hmem _ => ?_
  cases List.mem_singleton.mp hmem
  intro name g' hg' id hid hid'
  cases List.mem_singleton.mp (OrderedMap.mem_of_lookup hg')
  cases List.mem_singleton.mp hid
  exact absurd hid' (by decide)

end Group

end CipherGraph

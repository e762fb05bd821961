import CipherGraph.Proofs.BundleCodecs
import CipherGraph.Proofs.Canonical
import CipherGraph.Proofs.CompiledCourses
import Mathlib.Data.List.Pairwise

/-! # Ids after restoring

The counter of what is restored comes from the record, so that it may stand anywhere, up to the last
id of all. New ids ascend and belong to no node as long as the counter does not come round, which it
does unnoticed.
-/

namespace CipherGraph

variable {c c' : IdCounters}

namespace GraphRecord

variable {r : GraphRecord} {g : Graph}

/-- The counter does not pass the last id while a graph is restored. -/
theorem Fits.resumed_lt (h : r.Fits) (hlast : r.BelowLast) : r.resumed < NodeId.bound := by
  have hfold (nodes : List Node) (hnodes : ∀ n ∈ nodes, n.id + 1 < NodeId.bound) {start : NodeId}
      (hstart : start < NodeId.bound) :
      nodes.foldl (fun next n => max next (n.id + 1)) start < NodeId.bound := by
    induction nodes generalizing start with
    | nil => exact hstart
    | cons n nodes ih =>
      obtain ⟨hn, hnodes⟩ := List.forall_mem_cons.mp hnodes
      exact ih hnodes (Nat.max_lt.mpr ⟨hstart, hn⟩)
  exact hfold r.nodes hlast h.next

theorem reachable_of_restore (h : Runs r.restore c (.ok g) c') : g.Reachable := by
  unfold restore restoreIn Allocating.advance at h
  rw [runs_bind_of_ok Graph.runs_openSpace, runs_modify_bind] at h
  exact .ofParts h

theorem hidden_of_restore (h : Runs r.restore c (.ok g) c') : g.hidden = [] := by
  obtain ⟨-, rfl, -⟩ := restore_ok.mp h
  rfl

end GraphRecord

namespace Group

variable {gr gr' : Group}

structure Resuming (gr : Group) (c : IdCounters) : Prop where
  reachable : gr.Reachable
  key : gr.space.key < c.next.length
  peek : c.peek gr.space < NodeId.bound
  visible : ∀ g ∈ gr.graphs, g.hidden = []

theorem Resuming.member {r : GraphRecord} (h : gr.Resuming c) (hr : r.Fits)
    (hrun : Runs (do Group.addGraph gr (← r.restore)) c (.ok gr') c') : gr'.Resuming c' := by
  obtain ⟨g, c₁, hrestore, hadd⟩ := runs_bind_ok.mp hrun
  have hvisible := GraphRecord.hidden_of_restore hrestore
  have hreachable := h.reachable.addGraph (GraphRecord.reachable_of_restore hrestore) hadd
  obtain ⟨⟨-, hlast⟩, rfl, rfl⟩ := GraphRecord.restore_ok.mp hrestore
  obtain ⟨hname, -, ⟨hspace, -⟩ | ⟨-, -, rfl, rfl⟩⟩ := addGraph_ok hadd
  · have hother : c.next.length = gr.space.key := congrArg IdSpace.key hspace
    exact absurd h.key (hother ▸ Nat.lt_irrefl _)
  have hkey : gr.space.key < (c.next ++ [r.resumed]).length := by
    rw [List.length_append]
    exact Nat.lt_add_right _ h.key
  refine ⟨hreachable, ?_, ?_, fun k hk => ?_⟩
  · rw [IdCounters.advance, IdCounters.length_set]
    exact hkey
  · rw [IdCounters.advance, IdCounters.peek_set hkey]
    refine Nat.max_lt.mpr ⟨?_, ?_⟩
    · exact (IdCounters.peek_append_of_lt h.key r.resumed).symm ▸ h.peek
    · exact (IdCounters.peek_append ..).symm ▸ hr.resumed_lt hlast
  · rw [graphs, OrderedMap.values,
      OrderedMap.entries_insert_of_not_mem (OrderedMap.contains_eq_false.mp hname), List.map_append]
      at hk
    rcases List.mem_append.mp hk with hk | hk
    · exact h.visible k hk
    · cases List.mem_singleton.mp hk
      exact hvisible

theorem Resuming.restoreMembers {l : List GraphRecord} (h : gr.Resuming c) (hl : ∀ r ∈ l, r.Fits)
    (hrun : Runs (l.foldlM (fun gr member => do Group.addGraph gr (← member.restore)) gr) c
      (.ok gr') c') : gr'.Resuming c' := by
  induction l generalizing gr c with
  | nil =>
    obtain ⟨hgr, rfl⟩ := runs_pure.mp hrun
    cases hgr
    exact h
  | cons r l ih =>
    obtain ⟨hr, hl⟩ := List.forall_mem_cons.mp hl
    rw [List.foldlM_cons] at hrun
    obtain ⟨gr₁, c₁, hstep, hrest⟩ := runs_bind_ok.mp hrun
    exact ih (h.member hr hstep) hl hrest

theorem resuming_of_restore {r : GroupRecord} (hr : r.Fits) (h : Runs r.restore c (.ok gr) c') :
    gr.Resuming c' := by
  unfold GroupRecord.restore at h
  rw [runs_bind_of_ok Graph.runs_openSpace] at h
  have hempty : (Group.create r.name ⟨c.next.length⟩).Resuming ⟨c.next ++ [r.next]⟩ := by
    refine ⟨.create .., by simp [Group.create], ?_, fun k hk => absurd hk List.not_mem_nil⟩
    exact (IdCounters.peek_append ..).symm ▸ hr.next
  exact hempty.restoreMembers hr.members h

end Group

namespace Workshop

variable {space : IdSpace} {w w' : Workshop} {ids : List NodeId}

/-- What a record is restored to, where its numbers are words of 64 bits and shorter. -/
inductive Restored : IdSpace → Workshop → Prop where
  | graph {r : GraphRecord} {g : Graph} {c c' : IdCounters} (hr : r.Fits)
      (h : Runs r.restore c (.ok g) c') : Restored g.space ⟨[g], c'⟩
  | group {r : GroupRecord} {gr : Group} {c c' : IdCounters} (hr : r.Fits)
      (h : Runs r.restore c (.ok gr) c') : Restored gr.space ⟨gr.graphs, c'⟩

theorem Restored.underway (h : Restored space w) : w.Underway space := by
  cases h with
  | @graph r g c c' hr h =>
    obtain ⟨hcoherent, -⟩ := Graph.coherent_of_restore h
    have hreachable := GraphRecord.reachable_of_restore h
    obtain ⟨⟨-, hlast⟩, rfl, rfl⟩ := GraphRecord.restore_ok.mp h
    have hkey : c.next.length < (c.next ++ [r.resumed]).length := by simp
    have hpeek : (IdCounters.mk (c.next ++ [r.resumed])).peek ⟨c.next.length⟩ = r.resumed :=
      IdCounters.peek_append ..
    refine ⟨hkey, hpeek.symm ▸ hr.resumed_lt hlast, fun k hk => ?_⟩
    obtain rfl := List.mem_singleton.mp hk
    exact ⟨rfl, hreachable, hkey, fun id hid _ => hcoherent.next id hid⟩
  | @group r gr c c' hr h =>
    obtain ⟨hcoherent, -⟩ := Group.coherent_of_restore h
    have hresuming := Group.resuming_of_restore hr h
    refine ⟨hresuming.key, hresuming.peek, fun k hk => ?_⟩
    obtain ⟨hspace, hnext⟩ := hcoherent.members k hk
    obtain ⟨e, he, rfl⟩ := List.mem_map.mp hk
    exact ⟨hspace, (hresuming.reachable.sound.members e he).2, hspace ▸ hresuming.key,
      fun id hid _ => hnext.next id hid⟩

theorem Restored.visible (h : Restored space w) : ∀ g ∈ w.graphs, g.hidden = [] := by
  cases h with
  | graph hr h => exact List.forall_mem_singleton.mpr (GraphRecord.hidden_of_restore h)
  | group hr h => exact (Group.resuming_of_restore hr h).visible

theorem Restored.below (h : Restored space w) {m : Node} (hm : w.Has m) :
    m.id < w.counters.peek space := by
  obtain ⟨g, hg, hm⟩ := hm
  have hid := Graph.mem_ids_of_mem_nodes hm
  cases h with
  | graph hr h =>
    cases List.mem_singleton.mp hg
    exact (Graph.coherent_of_restore h).1.next m.id hid
  | group hr h =>
    obtain ⟨hspace, hcoherent⟩ := (Group.coherent_of_restore h).1.members g hg
    exact hspace ▸ hcoherent.next m.id hid

theorem Restored.agree (h : Restored space w) : w.Agree := by
  have hreachable := h.underway.graphs
  rintro m m' ⟨g, hg, hm⟩ ⟨g', hg', hm'⟩ heq
  have hsame : g = g' := by
    by_contra hne
    cases h with
    | graph => exact hne ((List.mem_singleton.mp hg).trans (List.mem_singleton.mp hg').symm)
    | group hr h =>
      have hseparate := (Group.coherent_of_restore h).1.separate.imp fun hs => hs.ids
      have : Std.Symm fun k k' : Graph => ∀ id ∈ k'.ids, id ∉ k.ids :=
        ⟨fun k k' hk id hid hid' => hk id hid' hid⟩
      refine hseparate.forall hg hg' hne m'.id (Graph.mem_ids_of_mem_nodes hm') ?_
      exact heq ▸ Graph.mem_ids_of_mem_nodes hm
  subst hsame
  exact (hreachable g hg).2.1.sound.node_eq hm hm' heq

theorem Restored.clear (h : Restored space w) (limit : Nat) :
    w.Clear space limit (w.counters.peek space) :=
  ⟨h.underway.at_position, fun _ hm => .inl (h.below hm)⟩

/-- Calls on what a record is restored to, and compilations of it, draw ids one after the other from
where the counter stands. They ascend and belong to no restored node exactly if the counter comes
round after the last of them at the earliest. Then nodes with the same id are the same and no graph
hides a node. -/
theorem Restored.fresh_iff (h : Restored space w) (hc : Course space w ids w') :
    (∀ i g, w'.graphs[i]? = some g → ∀ call : Graph.Call, ∃ new, new.length ≤ 1 ∧
      Course space w (ids ++ new)
        ⟨w'.graphs.set i (call.apply (g, w'.counters)).1, (call.apply (g, w'.counters)).2⟩) ∧
    (∀ g ∈ w'.graphs, ∀ o r c', Runs (g.compile o) w'.counters r c' →
      ∃ new copy, Course space w (ids ++ new) ⟨w'.graphs ++ [copy], c'⟩ ∧
        ∀ cg, r = .ok cg → copy = cg.graph) ∧
    (∀ gr : Group, gr.Reachable → (∀ g ∈ gr.graphs, g ∈ w'.graphs) → ∀ o r c',
      Runs (gr.compile o) w'.counters r c' →
      ∃ new copies, Course space w (ids ++ new) ⟨w'.graphs ++ copies, c'⟩ ∧
        ∀ cg, r = .ok cg → copies = cg.members.values.map (·.graph)) ∧
    (ids.Pairwise (· < ·) ∧ (∀ m, w.Has m → m.id ∉ ids) ↔
      w.counters.peek space + ids.length ≤ NodeId.bound) ∧
    (w.counters.peek space + ids.length ≤ NodeId.bound →
      ids = List.range' (w.counters.peek space) ids.length ∧
        (∀ m, w'.Has m → w.Has m ∨ m.id ∈ ids) ∧ w'.Agree ∧ ∀ g ∈ w'.graphs, g.hidden = []) := by
  have hat := h.underway.at_position
  obtain ⟨hat', hids⟩ := hat.course hc
  refine ⟨fun i g hg call => ?_, fun g hg o r c' hrun => ?_, fun gr hgr hgraphs o r c' hrun => ?_,
    ⟨?_, fun hroom => ?_⟩, fun hroom => ?_⟩
  · obtain ⟨new, hlength, hcall⟩ := course_call hat' hg call
    exact ⟨new, hlength, hc.trans hcall⟩
  · obtain ⟨new, copy, hcompile, hok⟩ := course_compile space hg (hat'.graphs g hg).2 hrun
    exact ⟨new, copy, hc.trans hcompile, fun cg hcg => (hok cg hcg).1⟩
  · obtain ⟨new, copies, hcompile, hok⟩ := course_compileGroup space hgr.sound
      (fun g hg => ⟨hgraphs g hg, (hat'.graphs g (hgraphs g hg)).2⟩) hrun
    exact ⟨new, copies, hc.trans hcompile, fun cg hcg => (hok cg hcg).1⟩
  · rintro ⟨hascend, -⟩
    exact (pairwise_handedOut h.underway.peek).mp (hids ▸ hascend)
  · refine ⟨hids ▸ (pairwise_handedOut h.underway.peek).mpr hroom, fun m hm hid => ?_⟩
    exact ((h.clear _).ids_new hroom hc (Nat.le_refl _)).2 m.id hid m hm rfl
  · obtain ⟨-, hagree, hhides⟩ := (h.clear _).course hroom hc (Nat.le_refl _)
    refine ⟨((h.clear _).ids_new hroom hc (Nat.le_refl _)).1, fun m => hat.has_course hc,
      hagree h.agree, fun g' hg' => ?_⟩
    rcases hhides g' hg' with hnone | ⟨g, hg, heq⟩
    · exact hnone
    · exact heq.trans (h.visible g hg)

/-- A single input, with the last id of all as the next one. -/
def lateRecord : GraphRecord := ⟨"g", 1, NodeId.bound - 1, [⟨0, .input "x" .cipher⟩], []⟩

theorem fits_lateRecord : lateRecord.Fits where
  width := by decide
  next := by decide
  nodes := by simp [lateRecord, Operation.Fits, NodeId.bound, UInt64.size]
  operands := by simp [lateRecord]

theorem wellformed_lateRecord : lateRecord.Wellformed := by
  refine ⟨by decide, by decide, by decide, by decide, nofun, nofun, by decide⟩

theorem runs_restore_lateRecord :
    Runs lateRecord.restore ⟨[]⟩ (.ok (lateRecord.graph ⟨0⟩)) ⟨[NodeId.bound - 1]⟩ :=
  wellformed_lateRecord.runs_restore (c := ⟨[]⟩) (by unfold GraphRecord.BelowLast; decide)

/-- One more node gets the last id of all, which is new. -/
theorem Restored.fresh_iff_lateRecord : ∃ g' c',
    Restored ⟨0⟩ ⟨[lateRecord.graph ⟨0⟩], ⟨[NodeId.bound - 1]⟩⟩ ∧
      Runs ((lateRecord.graph ⟨0⟩).negate 0) ⟨[NodeId.bound - 1]⟩
        (.ok (NodeId.bound - 1, g')) c' ∧
      g'.hidden = [] := by
  obtain ⟨g', c', hrun⟩ : ∃ g' c', Runs ((lateRecord.graph ⟨0⟩).negate 0) ⟨[NodeId.bound - 1]⟩
      (.ok (NodeId.bound - 1, g')) c' := by
    refine ⟨?_, ?_, ?_⟩
    rotate_left 2
    · unfold Runs
      cbv
      rfl
  have hrestored : Restored ⟨0⟩ ⟨[lateRecord.graph ⟨0⟩], ⟨[NodeId.bound - 1]⟩⟩ :=
    .graph fits_lateRecord runs_restore_lateRecord
  have hcourse : Course ⟨0⟩ ⟨[lateRecord.graph ⟨0⟩], ⟨[NodeId.bound - 1]⟩⟩ [NodeId.bound - 1]
      ⟨[g'], c'⟩ := .single (.made (i := 0) rfl hrun)
  obtain ⟨-, -, -, -, hfresh⟩ := hrestored.fresh_iff hcourse
  exact ⟨g', c', hrestored, hrun, (hfresh (by decide)).2.2.2 g' List.mem_cons_self⟩

/-- The node after that gets the id of the input, which it hides. -/
theorem Restored.not_fresh : ∃ (r : GraphRecord) (g g₁ g₂ : Graph) (c c₁ c₂ : IdCounters)
    (id₁ id₂ : NodeId), r.Fits ∧ Runs r.restore ⟨[]⟩ (.ok g) c ∧
      Runs (g.negate 0) c (.ok (id₁, g₁)) c₁ ∧ Runs (g₁.negate 0) c₁ (.ok (id₂, g₂)) c₂ ∧
      id₂ < id₁ ∧ id₂ ∈ g.ids ∧ g₂.hidden = [id₂] := by
  refine ⟨lateRecord, _, ?_, ?_, _, ?_, ?_, NodeId.bound - 1, 0, fits_lateRecord,
    runs_restore_lateRecord, ?_, ?_, ?_, ?_, ?_⟩
  rotate_left 4
  · unfold Runs
    cbv
    rfl
  · unfold Runs
    cbv
    rfl
  · decide
  · exact (lateRecord.sorted_perm.map (·.id)).mem_iff.mpr List.mem_cons_self
  · decide

end Workshop

end CipherGraph

import CipherGraph.Proofs.Analysis
import CipherGraph.Proofs.Meaning
import CipherGraph.Proofs.Removal
import Mathlib.Data.List.Permutation

/-! # What values cost

The operations are read as what it takes to compute their values: levels of depth and uses of keys.
A graph whose nodes are all needed asks for just what its outputs cost, so that graphs whose outputs
cost the same ask for the same keys, however else they differ.
-/

namespace CipherGraph

/-- A step that a ciphertext is turned by, or the product of two ciphertexts. -/
inductive KeyUse where
  | turn (step : Int)
  | relinearization

@[ext]
structure Cost where
  encrypted : Bool
  depth : Nat
  keys : Set KeyUse

theorem ValueClass.isCipher_join (a b : ValueClass) :
    (a.join b).isCipher = (a.isCipher || b.isCipher) := by
  cases a <;> cases b <;> rfl

namespace Cost

/-- A value that nothing is computed for. -/
def free (encrypted : Bool) : Cost := ⟨encrypted, 0, ∅⟩

def join (a b : Cost) : Cost :=
  ⟨a.encrypted || b.encrypted, max a.depth b.depth, a.keys ∪ b.keys⟩

/-- Whole turns take no key. -/
def turned (a : Cost) (step : Int) : Cost :=
  { a with keys := a.keys ∪ {u | u = .turn step ∧ a.encrypted = true ∧ step ≠ 0} }

def combined (op : Arithmetic) (a b : Cost) : Cost where
  encrypted := true
  depth := max a.depth b.depth + if Graph.isProduct (.arithmetic op) then 1 else 0
  keys := a.keys ∪ b.keys ∪
    {u | u = .relinearization ∧ op = .mul ∧ a.encrypted = true ∧ b.encrypted = true}

theorem join_comm (a b : Cost) : a.join b = b.join a := by
  simp [join, Bool.or_comm, Nat.max_comm, Set.union_comm]

theorem join_right_comm (a b c : Cost) : (a.join b).join c = (a.join c).join b := by
  unfold join
  rw [Bool.or_right_comm, Nat.max_right_comm, Set.union_right_comm]

theorem combined_comm (op : Arithmetic) (a b : Cost) : combined op a b = combined op b a := by
  simp [combined, Nat.max_comm, Set.union_comm b.keys, and_comm]

variable {args : List (Meaning Cost)} {c : Cost}

theorem depth_foldl_join : (args.foldl (fun c a => c.join a.value) c).depth =
    args.foldl (fun n a => max n a.value.depth) c.depth := by
  induction args generalizing c with
  | nil => rfl
  | cons a args ih => exact ih

theorem mem_keys_foldl_join {u : KeyUse} : u ∈ (args.foldl (fun c a => c.join a.value) c).keys ↔
    u ∈ c.keys ∨ ∃ a ∈ args, u ∈ a.value.keys := by
  induction args generalizing c with
  | nil => simp
  | cons a args ih => rw [List.foldl_cons, ih, join, Set.mem_union, or_assoc,
      List.exists_mem_cons_iff]

theorem encrypted_foldl_join {type : ValueClass}
    (hargs : ∀ a ∈ args, a.value.encrypted = a.type.isCipher) (hc : c.encrypted = type.isCipher) :
    (args.foldl (fun c a => c.join a.value) c).encrypted =
      ((args.map (·.type)).foldl ValueClass.join type).isCipher := by
  induction args generalizing c type with
  | nil => exact hc
  | cons a args ih =>
    obtain ⟨ha, hargs⟩ := List.forall_mem_cons.mp hargs
    rw [List.foldl_cons, List.map_cons, List.foldl_cons]
    refine ih hargs ?_
    rw [join, ha, hc, ValueClass.isCipher_join]

end Cost

open Cost in
/-- The operations on vectors of `width` slots, as what they take. -/
def costs (width : Nat) : Interpretation Cost where
  input _ type := free type.isCipher
  constant _ := free false
  encode _ _ a := { a with encrypted := false }
  negate a := a.value
  rotateLeft steps a := a.value.turned (rotationStep steps width true)
  rotateRight steps a := a.value.turned (rotationStep steps width false)
  clear _ a b := a.value.join b.value
  encrypted := combined
  aggregate _ args := args.foldl (fun c a => c.join a.value) (free false)

theorem costs_lawful (width : Nat) : (costs width).Lawful where
  add_comm := Cost.combined_comm .add
  mul_comm := Cost.combined_comm .mul
  sub_eq a b := by
    change Cost.combined .sub a b = Cost.combined .add b a
    rw [Cost.combined_comm .add]
    simp [Cost.combined, Graph.isProduct]

theorem arithmetic_costs_comm (width scaleBits : Nat) (op : Arithmetic) (a b : Meaning Cost) :
    (costs width).arithmetic scaleBits op b a = (costs width).arithmetic scaleBits op a b := by
  have hclear : (costs width).clear op b a = (costs width).clear op a b := Cost.join_comm ..
  have hencrypted (x y : Cost) : (costs width).encrypted op y x = (costs width).encrypted op x y :=
    Cost.combined_comm ..
  rw [Interpretation.arithmetic, Interpretation.arithmetic, ValueClass.join_comm,
    Bool.or_comm, hclear, hencrypted]

theorem Interpretation.apply_eq_none {V : Type} {I : Interpretation V} {scaleBits : Nat}
    {op : Operation} {args : List (Meaning V)} (hop : ∀ a, op ≠ .aggregate a)
    (h : args.length ≠ op.arity) : I.apply scaleBits op args = none := by
  unfold apply
  split <;> simp_all [Operation.arity]

theorem aggregate_costs_perm {width scaleBits : Nat} {op : Aggregate}
    {args args' : List (Meaning Cost)} (h : args'.Perm args) :
    (costs width).apply scaleBits (.aggregate op) args' =
      (costs width).apply scaleBits (.aggregate op) args := by
  have : RightCommutative fun (c : Cost) (a : Meaning Cost) => c.join a.value :=
    ⟨fun _ _ _ => Cost.join_right_comm ..⟩
  have htype : (args'.map (·.type)).foldl ValueClass.join .raw =
      (args.map (·.type)).foldl ValueClass.join .raw :=
    (Operation.aggregate op).result_perm (h.map _)
  simp only [Interpretation.apply, htype, costs, h.foldl_eq]

theorem costs_symmetric (width scaleBits : Nat) : (costs width).Symmetric scaleBits := by
  intro op args args' h
  by_cases haggregate : ∃ a, op = .aggregate a
  · obtain ⟨op, rfl⟩ := haggregate
    exact aggregate_costs_perm h
  have hop (a : Aggregate) : op ≠ .aggregate a := fun ha => haggregate ⟨a, ha⟩
  by_cases hlen : args.length = op.arity
  · cases op with
    | aggregate a => exact absurd rfl (hop a)
    | arithmetic op =>
      obtain ⟨a, b, rfl⟩ := List.length_eq_two.mp hlen
      rcases List.perm_pair.mp h with rfl | rfl
      · rfl
      · exact congrArg some (arithmetic_costs_comm width scaleBits op a b)
    | input | constant =>
      obtain rfl := List.length_eq_zero_iff.mp hlen
      rw [List.perm_nil.mp h]
    | output | negate | rotateLeft | rotateRight | encode =>
      obtain ⟨a, rfl⟩ := List.length_eq_one_iff.mp hlen
      rw [List.perm_singleton.mp h]
  · rw [Interpretation.apply_eq_none hop hlen,
      Interpretation.apply_eq_none hop (h.length_eq ▸ hlen)]

namespace Graph

variable {g : Graph} {scaleBits : Nat} {op : Operation} {args : List (Meaning Cost)}
  {d : Meaning Cost} {id : NodeId} {v : NodeId → Meaning Cost} {rank : NodeId → Nat} {t : Typing}
  {u : KeyUse} {r r' : KeyRequirements}

/-- A value costs what its operands cost, and what the analysis counts at the operation. -/
structure Accounts (g : Graph) (op : Operation) (args : List (Meaning Cost)) (d : Meaning Cost) :
    Prop where
  encrypted : d.value.encrypted = d.type.isCipher
  depth : d.value.depth = args.foldl (fun n a => max n a.value.depth) 0 +
    if d.type = .cipher && isProduct op then 1 else 0
  turn : ∀ step, .turn step ∈ d.value.keys ↔ (∃ a ∈ args, .turn step ∈ a.value.keys) ∨
    d.type = .cipher ∧ g.stepOf? op = some step ∧ step ≠ 0
  relinearization : .relinearization ∈ d.value.keys ↔
    (∃ a ∈ args, .relinearization ∈ a.value.keys) ∨
      op = .arithmetic .mul ∧ ∀ a ∈ args, a.type = .cipher

theorem read_costs {width : Nat} {a : Meaning Cost} (ha : a.value.encrypted = a.type.isCipher) :
    (costs width).read scaleBits a = a.value := by
  unfold Interpretation.read
  split
  · next hraw =>
    have hclear : a.value.encrypted = false := by rw [ha, hraw]; rfl
    exact Cost.ext hclear.symm rfl rfl
  · rfl

theorem accounts_clear {c : Cost} {type : ValueClass} (hencrypted : c.encrypted = type.isCipher)
    (hdepth : c.depth = args.foldl (fun n a => max n a.value.depth) 0)
    (hkeys : ∀ u, u ∈ c.keys ↔ ∃ a ∈ args, u ∈ a.value.keys)
    (hspends : type = .cipher → isProduct op = false)
    (hturn : type = .cipher → g.stepOf? op = none)
    (hmul : op = .arithmetic .mul → ∃ a ∈ args, a.type ≠ .cipher) :
    g.Accounts op args ⟨type, c⟩ := by
  refine ⟨hencrypted, ?_, fun step => ?_, ?_⟩
  · have hnone : (type = .cipher && isProduct op) = false := by
      by_cases htype : type = .cipher <;> simp [htype, hspends]
    rw [hnone]
    exact hdepth
  · rw [hkeys, or_iff_left]
    rintro ⟨htype, hstep, -⟩
    cases (hturn htype).symm.trans hstep
  · rw [hkeys, or_iff_left]
    rintro ⟨hop, hall⟩
    obtain ⟨a, ha, hclear⟩ := hmul hop
    exact hclear (hall a ha)

theorem accounts_turned {a : Meaning Cost} {step : Int}
    (ha : a.value.encrypted = a.type.isCipher) (hop : g.stepOf? op = some step)
    (hproduct : isProduct op = false) (hmul : op ≠ .arithmetic .mul) :
    g.Accounts op [a] ⟨a.type, a.value.turned step⟩ := by
  refine ⟨ha, ?_, fun step' => ?_, ?_⟩
  · simp [Cost.turned, hproduct]
  · simp only [Cost.turned, hop, ha, ValueClass.isCipher]
    grind
  · simp [Cost.turned, hmul]

theorem accounts_arithmetic {op : Arithmetic} {a b : Meaning Cost}
    (ha : a.value.encrypted = a.type.isCipher) (hb : b.value.encrypted = b.type.isCipher) :
    g.Accounts (.arithmetic op) [a, b] ((costs g.width).arithmetic scaleBits op a b) := by
  have hjoin := ValueClass.isCipher_join a.type b.type
  unfold Interpretation.arithmetic
  rw [read_costs ha, read_costs hb, ← hjoin]
  split
  · next hc =>
    have hcipher : a.type.join b.type = .cipher := by simpa [ValueClass.isCipher] using hc
    refine ⟨hc.symm, ?_, fun step => ?_, ?_⟩
    · simp [costs, Cost.combined, hcipher]
    · simp [costs, Cost.combined, stepOf?]
    · simp only [costs, Cost.combined, ha, hb, ValueClass.isCipher]
      grind
  · next hc =>
    have hclear : a.type.join b.type ≠ .cipher := by simpa [ValueClass.isCipher] using hc
    refine accounts_clear ?_ ?_ (fun u => ?_) (absurd · hclear) (absurd · hclear) fun _ => ?_
    · rw [hjoin, ← ha, ← hb]
      rfl
    · simp [costs, Cost.join]
    · simp [costs, Cost.join]
    · refine ⟨a, List.mem_cons_self, fun hcipher => hc ?_⟩
      rw [hjoin, hcipher]
      rfl

theorem accounts_apply (hargs : ∀ a ∈ args, a.value.encrypted = a.type.isCipher)
    (h : (costs g.width).apply scaleBits op args = some d) : g.Accounts op args d := by
  have hself {op : Operation} {a : Meaning Cost} (ha : a.value.encrypted = a.type.isCipher)
      (hproduct : isProduct op = false) (hstep : g.stepOf? op = none)
      (hmul : op ≠ .arithmetic .mul) : g.Accounts op [a] ⟨a.type, a.value⟩ :=
    accounts_clear ha (by simp) (by simp) (fun _ => hproduct) (fun _ => hstep)
      fun hop => absurd hop hmul
  cases op with
  | input name type =>
    match args with
    | [] =>
      cases h
      exact accounts_clear rfl rfl (by simp [costs, Cost.free]) (fun _ => rfl) (fun _ => rfl) nofun
    | _ :: _ => cases h
  | constant value =>
    match args with
    | [] =>
      cases h
      exact accounts_clear rfl rfl (by simp [costs, Cost.free]) (fun _ => rfl) (fun _ => rfl) nofun
    | _ :: _ => cases h
  | output | negate =>
    match args with
    | [a] =>
      cases h
      exact hself (hargs a List.mem_cons_self) rfl rfl nofun
    | [] | _ :: _ :: _ => cases h
  | rotateLeft | rotateRight =>
    match args with
    | [a] =>
      cases h
      exact accounts_turned (hargs a List.mem_cons_self) rfl rfl nofun
    | [] | _ :: _ :: _ => cases h
  | encode =>
    match args with
    | [a] =>
      cases h
      exact accounts_clear rfl (by simp [costs]) (by simp [costs]) nofun nofun nofun
    | [] | _ :: _ :: _ => cases h
  | arithmetic op =>
    match args with
    | [a, b] =>
      cases h
      exact accounts_arithmetic (hargs a List.mem_cons_self)
        (hargs b (List.mem_cons_of_mem _ List.mem_cons_self))
    | [] | [_] | _ :: _ :: _ :: _ => cases h
  | aggregate op =>
    cases h
    refine accounts_clear (Cost.encrypted_foldl_join hargs rfl) Cost.depth_foldl_join (fun u => ?_)
      (fun _ => rfl) (fun _ => rfl) nofun
    rw [show u ∈ ((costs g.width).aggregate op args).keys ↔ _ from Cost.mem_keys_foldl_join]
    simp [Cost.free]

/-- The analysis records a use of a key at this node. -/
def Uses (g : Graph) (t : Typing) (id : NodeId) : KeyUse → Prop
  | .turn step => g.Rotates t step id
  | .relinearization => g.Combines t .mul id

theorem Uses.mem_ids (h : g.Uses t id u) : id ∈ g.ids := by
  cases u with
  | turn => exact h.node.elim fun _ hop => mem_ids_of_mem_nodes hop.1
  | relinearization => exact mem_ids_of_mem_nodes h.node

theorem Solves.input_cost (hs : g.Solves (costs g.width) scaleBits v) (hg : g.Sound)
    {name : String} {type : ValueClass} (hn : ⟨id, .input name type⟩ ∈ g.nodes) :
    (v id).value = .free type.isCipher := by
  have hnone : g.operands id = [] := List.length_eq_zero_iff.mp (hg.arity _ hn)
  have hsolve := hs _ hn
  rw [hnone] at hsolve
  exact (congrArg Meaning.value (Option.some.inj hsolve)).symm

theorem Solves.accounts (hs : g.Solves (costs g.width) scaleBits v) (hg : g.Sound)
    (hv : g.hidden = []) (hrank : g.Ranked rank) (hop : ⟨id, op⟩ ∈ g.nodes) :
    g.Accounts op ((g.operands id).map v) (v id) := by
  induction hn : rank id using Nat.strongRecOn generalizing id op with
  | ind n ih =>
    subst hn
    refine accounts_apply (fun a ha => ?_) (hs _ hop)
    obtain ⟨o, ho, rfl⟩ := List.mem_map.mp ha
    obtain ⟨op', hop'⟩ := exists_node_of_mem_ids (hg.mem_ids_of_mem_operands hv ho)
    exact (ih (rank o) (hrank id o ho) hop' rfl).encrypted

section Solved

variable (hs : g.Solves (costs g.width) scaleBits v) (hg : g.Sound) (hv : g.hidden = [])
  (ht : g.inferTypes = .ok t)

include hs hg hv ht

theorem Solves.isDepth (hid : id ∈ g.ids) : g.IsDepth t id (v id).value.depth := by
  obtain ⟨rank, hrank⟩ := hg.exists_rank hv ht
  induction hn : rank id using Nat.strongRecOn generalizing id with
  | ind n ih =>
    subst hn
    obtain ⟨op, hop⟩ := exists_node_of_mem_ids hid
    have htype := hg.typed_of_solves hv hs hrank (typed_of_inferTypes hg ht) hid
    have hspends : g.spends t id = ((v id).type = .cipher && isProduct op) := by
      rw [spends_eq ((op?_eq_ok hg.ascending).mpr hop), htype]
      simp
    have hdepth := (hs.accounts hg hv hrank hop).depth
    rw [List.foldl_map, ← hspends] at hdepth
    rw [hdepth]
    exact isDepth_of_operands (D := fun o => (v o).value.depth) fun o ho =>
      ih (rank o) (hrank id o ho) (hg.mem_ids_of_mem_operands hv ho) rfl

theorem Solves.mem_keys_iff (hid : id ∈ g.ids) : u ∈ (v id).value.keys ↔
    (∃ o ∈ g.operands id, u ∈ (v o).value.keys) ∨ g.Uses t id u := by
  obtain ⟨rank, hrank⟩ := hg.exists_rank hv ht
  obtain ⟨op, hop⟩ := exists_node_of_mem_ids hid
  have htyped {k : NodeId} (hk : k ∈ g.ids) : t.find? k = some (v k).type :=
    hg.typed_of_solves hv hs hrank (typed_of_inferTypes hg ht) hk
  have hnode {op' : Operation} : ⟨id, op'⟩ ∈ g.nodes ↔ op' = op :=
    ⟨fun h => by cases hg.node_eq hop h rfl; rfl, fun h => h ▸ hop⟩
  have haccounts := hs.accounts hg hv hrank hop
  have hread {P : Meaning Cost → Prop} : (∃ a ∈ (g.operands id).map v, P a) ↔
      ∃ o ∈ g.operands id, P (v o) := by simp
  cases u with
  | turn step =>
    rw [haccounts.turn, hread, Uses]
    refine or_congr_right ⟨?_, ?_⟩
    · rintro ⟨hcipher, hstep, hproper⟩
      exact ⟨⟨op, hop, hstep⟩, (htyped hid).trans (congrArg some hcipher), hproper⟩
    · rintro ⟨⟨_, hn, hstep⟩, hcipher, hproper⟩
      cases hnode.mp hn
      exact ⟨Option.some.inj ((htyped hid).symm.trans hcipher), hstep, hproper⟩
  | relinearization =>
    rw [haccounts.relinearization, hread, Uses, List.forall_mem_map]
    have hclass {o : NodeId} (ho : o ∈ g.operands id) :
        (v o).type = .cipher ↔ t.find? o = some .cipher := by
      rw [htyped (hg.mem_ids_of_mem_operands hv ho), Option.some.injEq]
    refine or_congr_right ⟨?_, ?_⟩
    · rintro ⟨rfl, hall⟩
      exact ⟨hop, fun o ho => (hclass ho).mp (hall o ho)⟩
    · rintro ⟨hn, hall⟩
      exact ⟨(hnode.mp hn).symm, fun o ho => (hclass ho).mpr (hall o ho)⟩

theorem Solves.exists_uses (hid : id ∈ g.ids) (hu : u ∈ (v id).value.keys) :
    ∃ k, g.Uses t k u := by
  obtain ⟨rank, hrank⟩ := hg.exists_rank hv ht
  induction hn : rank id using Nat.strongRecOn generalizing id with
  | ind n ih =>
    subst hn
    rcases (hs.mem_keys_iff hg hv ht hid).mp hu with ⟨o, ho, hu⟩ | huses
    · exact ih (rank o) (hrank id o ho) (hg.mem_ids_of_mem_operands hv ho) hu rfl
    · exact ⟨id, huses⟩

theorem Solves.depth_le {o : NodeId} (hid : id ∈ g.ids) (ho : o ∈ g.operands id) :
    (v o).value.depth ≤ (v id).value.depth := by
  obtain ⟨rank, hrank⟩ := hg.exists_rank hv ht
  obtain ⟨op, hop⟩ := exists_node_of_mem_ids hid
  rw [(hs.accounts hg hv hrank hop).depth, List.foldl_map]
  exact Nat.le_add_right_of_le (le_deepestOf (D := fun o => (v o).value.depth) ho)

end Solved

/-- What holds of the inputs and the outputs, and of the operands of what it holds of, holds of all
nodes that are needed. -/
theorem forall_of_needed (hneeded : ∀ n ∈ g.nodes, g.Needed n) {P : NodeId → Prop}
    (hinput : ∀ id name type, ⟨id, .input name type⟩ ∈ g.nodes → P id)
    (houtput : ∀ id name, ⟨id, .output name⟩ ∈ g.nodes → P id)
    (hoperand : ∀ id, ∀ o ∈ g.operands id, P id → P o) (hid : id ∈ g.ids) : P id := by
  obtain ⟨op, hop⟩ := exists_node_of_mem_ids hid
  rcases hneeded _ hop with ⟨name, type, rfl⟩ | ⟨name, rfl⟩ | ⟨out, name, hout, hpath⟩
  · exact hinput id name type hop
  · exact houtput id name hop
  · replace hpath : Relation.TransGen (fun o k => o ∈ g.operands k) id out := hpath
    clear hid hop
    induction hpath using Relation.TransGen.head_induction_on with
    | single ho => exact hoperand out _ ho (houtput out name hout)
    | head ho _ ih => exact hoperand _ _ ho ih

def outputCosts (g : Graph) (v : NodeId → Meaning Cost) : Set Cost :=
  {c | ∃ out name, ⟨out, .output name⟩ ∈ g.nodes ∧ (v out).value = c}

/-- Requirements for values of these costs, in vectors of `width` slots, and for nothing else. -/
structure Totals (width : Nat) (values : Set Cost) (r : KeyRequirements) : Prop where
  ascends : r.Ascends
  rotationSteps : ∀ step, step ∈ r.rotationSteps ↔ ∃ c ∈ values, .turn step ∈ c.keys
  depth : ∀ n, r.depth ≤ n ↔ ∀ c ∈ values, c.depth ≤ n
  relinearize : r.relinearize = true ↔ ∃ c ∈ values, .relinearization ∈ c.keys
  width : r.width = width

theorem Totals.unique {width : Nat} {values : Set Cost} (h : Totals width values r)
    (h' : Totals width values r') : r = r' := by
  refine KeyRequirements.Covers.antisymm ?_ ?_ h.ascends h'.ascends
  · exact ⟨fun step hstep => (h.rotationSteps step).mpr ((h'.rotationSteps step).mp hstep),
      (h'.depth _).mpr ((h.depth _).mp le_rfl),
      fun hr => h.relinearize.mpr (h'.relinearize.mp hr), (h'.width.trans h.width.symm).le⟩
  · exact ⟨fun step hstep => (h'.rotationSteps step).mpr ((h.rotationSteps step).mp hstep),
      (h.depth _).mpr ((h'.depth _).mp le_rfl),
      fun hr => h'.relinearize.mpr (h.relinearize.mp hr), (h.width.trans h'.width.symm).le⟩

section Needed

variable (hs : g.Solves (costs g.width) scaleBits v) (hg : g.Sound) (hv : g.hidden = [])
  (ht : g.inferTypes = .ok t) (hneeded : ∀ n ∈ g.nodes, g.Needed n)

include hs hg hv ht hneeded

theorem Solves.exists_uses_iff :
    (∃ id, g.Uses t id u) ↔ ∃ c ∈ g.outputCosts v, u ∈ c.keys := by
  constructor
  · rintro ⟨id, hid⟩
    by_contra hnone
    have hunused {k : NodeId} (hk : k ∈ g.ids) : u ∉ (v k).value.keys := by
      refine forall_of_needed (P := fun k => u ∉ (v k).value.keys) hneeded
        (fun k name type hn hu => ?_) (fun k name hn hu => hnone ⟨_, ⟨k, name, hn, rfl⟩, hu⟩)
        (fun k o ho hk hu => ?_) hk
      · rw [hs.input_cost hg hn] at hu
        exact hu
      · have hreader := hg.mem_ids_of_operand hv ho
        exact hk ((hs.mem_keys_iff hg hv ht hreader).mpr (.inl ⟨o, ho, hu⟩))
    exact hunused hid.mem_ids ((hs.mem_keys_iff hg hv ht hid.mem_ids).mpr (.inr hid))
  · rintro ⟨_, ⟨out, name, hn, rfl⟩, hu⟩
    exact hs.exists_uses hg hv ht (mem_ids_of_mem_nodes hn) hu

theorem Solves.depth_le_of_outputs {n : Nat} (hall : ∀ c ∈ g.outputCosts v, c.depth ≤ n)
    (hid : id ∈ g.ids) : (v id).value.depth ≤ n := by
  refine forall_of_needed (P := fun k => (v k).value.depth ≤ n) hneeded
    (fun k name type hn => ?_) (fun k name hn => hall _ ⟨k, name, hn, rfl⟩)
    (fun k o ho hk => (hs.depth_le hg hv ht (hg.mem_ids_of_operand hv ho) ho).trans hk) hid
  rw [hs.input_cost hg hn]
  exact Nat.zero_le n

theorem Solves.totals (hr : g.requirements t = .ok r) :
    Totals g.width (g.outputCosts v) r := by
  have huses (u : KeyUse) := hs.exists_uses_iff hg hv ht hneeded (u := u)
  obtain ⟨⟨id, path, hpath, hdeepest⟩, hgreatest⟩ := requirements_depth hg hv hr
  refine ⟨requirements_ascends hr, fun step => ?_, fun n => ⟨?_, fun hall => ?_⟩, ?_,
    requirements_width hr⟩
  · exact (requirements_rotationSteps hg hr step).trans (huses (.turn step))
  · rintro hle _ ⟨out, name, hn, rfl⟩
    obtain ⟨path, hpath, hcount⟩ := (hs.isDepth hg hv ht (mem_ids_of_mem_nodes hn)).1
    exact (hgreatest ⟨out, path, hpath, hcount⟩).trans hle
  · rw [← hdeepest]
    by_cases hid : id ∈ g.ids
    · exact ((hs.isDepth hg hv ht hid).2 ⟨path, hpath, rfl⟩).trans
        (hs.depth_le_of_outputs hg hv ht hneeded hall hid)
    · rw [hpath.countP_eq_zero hg hv hid]
      exact Nat.zero_le n
  · exact (requirements_relinearize hg ht hr).trans (huses .relinearization)

end Needed

end Graph

end CipherGraph

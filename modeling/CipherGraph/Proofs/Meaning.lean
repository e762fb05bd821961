import CipherGraph.Proofs.Typing

/-! # Meanings

What the nodes of a graph denote, under any interpretation of the operations over vectors. The
meaning of a node follows its operands, so on an acyclic graph every node has exactly one.
-/

namespace CipherGraph

/-- What a node stands for: a vector and its class. -/
structure Meaning (V : Type) where
  type : ValueClass
  value : V

/-- A meaning of the operations over vectors `V`. Encrypted arithmetic has an encrypted operand,
and its raw operands are encoded first; clear arithmetic has none. -/
structure Interpretation (V : Type) where
  input : String → ValueClass → V
  constant : Constant → V
  encode : Nat → Nat → V → V
  negate : Meaning V → V
  rotateLeft : Nat → Meaning V → V
  rotateRight : Nat → Meaning V → V
  clear : Arithmetic → Meaning V → Meaning V → V
  encrypted : Arithmetic → V → V → V
  aggregate : Aggregate → List (Meaning V) → V

variable {V : Type}

namespace Interpretation

structure Lawful (I : Interpretation V) : Prop where
  add_comm : ∀ a b, I.encrypted .add a b = I.encrypted .add b a
  mul_comm : ∀ a b, I.encrypted .mul a b = I.encrypted .mul b a
  sub_eq : ∀ a b, I.encrypted .sub a b = I.encrypted .add (I.negate ⟨.cipher, b⟩) a

variable (I : Interpretation V) (scaleBits : Nat)

/-- How encrypted arithmetic reads an operand. -/
def read (d : Meaning V) : V :=
  if d.type = .raw then I.encode scaleBits 0 d.value else d.value

def arithmetic (op : Arithmetic) (a b : Meaning V) : Meaning V :=
  ⟨a.type.join b.type,
    if a.type.isCipher || b.type.isCipher then
      I.encrypted op (I.read scaleBits a) (I.read scaleBits b)
    else I.clear op a b⟩

def apply : Operation → List (Meaning V) → Option (Meaning V)
  | .input name type, [] => some ⟨type, I.input name type⟩
  | .constant c, [] => some ⟨.raw, I.constant c⟩
  | .output _, [a] => some ⟨a.type, a.value⟩
  | .negate, [a] => some ⟨a.type, I.negate a⟩
  | .rotateLeft steps, [a] => some ⟨a.type, I.rotateLeft steps a⟩
  | .rotateRight steps, [a] => some ⟨a.type, I.rotateRight steps a⟩
  | .encode scaleBits level, [a] => some ⟨.plain, I.encode scaleBits level a.value⟩
  | .arithmetic op, [a, b] => some (I.arithmetic scaleBits op a b)
  | .aggregate op, args =>
    some ⟨(args.map (·.type)).foldl ValueClass.join .raw, I.aggregate op args⟩
  | _, _ => none

theorem apply_isSome {op : Operation} {args : List (Meaning V)}
    (h : args.length = op.arity) : ∃ d, I.apply scaleBits op args = some d := by
  cases op with
  | input | constant =>
    cases List.length_eq_zero_iff.mp h
    exact ⟨_, rfl⟩
  | output | negate | rotateLeft | rotateRight | encode =>
    obtain ⟨a, rfl⟩ := List.length_eq_one_iff.mp h
    exact ⟨_, rfl⟩
  | arithmetic =>
    obtain ⟨a, b, rfl⟩ := List.length_eq_two.mp h
    exact ⟨_, rfl⟩
  | aggregate => exact ⟨_, rfl⟩

/-- The order of operands does not matter. -/
def Symmetric : Prop :=
  ∀ (op : Operation) (args args' : List (Meaning V)), args'.Perm args →
    I.apply scaleBits op args' = I.apply scaleBits op args

end Interpretation

/-- A node's meaning comes from those of its operands. -/
inductive Graph.Denotes (I : Interpretation V) (scaleBits : Nat) (g : Graph) :
    NodeId → Meaning V → Prop where
  | node {id : NodeId} {op : Operation} {value : NodeId → Meaning V} {d : Meaning V}
      (hop : g.op? id = .ok op) (hargs : ∀ o ∈ g.operands id, Denotes I scaleBits g o (value o))
      (hd : I.apply scaleBits op ((g.operands id).map value) = some d) :
      Denotes I scaleBits g id d

namespace Graph

variable {I : Interpretation V} {scaleBits : Nat} {g : Graph}

theorem Denotes.unique {id : NodeId} {d d' : Meaning V} (h : g.Denotes I scaleBits id d)
    (h' : g.Denotes I scaleBits id d') : d = d' := by
  induction h generalizing d' with
  | node hop _ hd ih =>
    obtain ⟨hop', hargs', hd'⟩ := h'
    cases hop.symm.trans hop'
    rw [List.map_congr_left fun o ho => ih o ho (hargs' o ho)] at hd
    exact Option.some.inj (hd.symm.trans hd')

theorem Denotes.removeDead (hg : g.Wellformed) {id : NodeId} {d : Meaning V}
    (h : g.Denotes I scaleBits id d) (hlive : g.place id ∈ g.live) :
    g.removeDead.2.Denotes I scaleBits id d := by
  induction h with
  | node hop _ hd ih =>
    have hn := (op?_eq_ok hg.ascending).mp hop
    have hkept := mem_nodes_removeDead.mpr ⟨hn, hlive⟩
    rw [← operands_removeDead hlive] at hd
    refine .node ((op?_eq_ok hg.removeDead.ascending).mpr hkept) (fun o ho => ?_) hd
    rw [operands_removeDead hlive] at ho
    refine ih o ho ?_
    obtain ⟨e, he, rfl⟩ := mem_operands.mp ho
    obtain ⟨he, htarget⟩ := mem_incoming.mp he
    rw [← (hg.mem_places.mp (hg.sources e he)).2]
    exact source_mem_live he (htarget ▸ hlive)

/-- Values of all nodes that fit every node's operation. -/
def Solves (I : Interpretation V) (scaleBits : Nat) (g : Graph) (v : NodeId → Meaning V) :
    Prop :=
  ∀ n ∈ g.nodes, I.apply scaleBits n.op ((g.operands n.id).map v) = some (v n.id)

/-- Operands stay in order when one is replaced, or else their order does not matter. -/
def Orderly (I : Interpretation V) (scaleBits : Nat) (g : Graph) : Prop :=
  g.Ported ∨ I.Symmetric scaleBits

variable {rank : NodeId → Nat} {v : NodeId → Meaning V} {t : Typing}

/-- In a ranked graph whatever solves the equations of the nodes is what they denote. -/
theorem Solves.denotes (hs : g.Solves I scaleBits v) (h : g.Wellformed) (hrank : g.Ranked rank)
    {id : NodeId} (hid : id ∈ g.ids) : g.Denotes I scaleBits id (v id) := by
  induction hn : rank id using Nat.strongRecOn generalizing id with
  | ind n ih =>
    subst hn
    obtain ⟨op, hop⟩ := exists_node_of_mem_ids hid
    refine .node ((op?_eq_ok h.ascending).mpr hop) (fun o ho => ?_) (hs _ hop)
    exact ih (rank o) (hrank id o ho) (h.mem_ids_of_mem_operands ho) rfl

theorem Sound.exists_denotes (h : g.Sound) (hv : g.hidden = []) (hrank : g.Ranked rank)
    {id : NodeId} (hid : id ∈ g.ids) : ∃ d, g.Denotes I scaleBits id d := by
  induction hn : rank id using Nat.strongRecOn generalizing id with
  | ind n ih =>
    subst hn
    obtain ⟨op, hop⟩ := exists_node_of_mem_ids hid
    have hargs : ∀ o, ∃ d, o ∈ g.operands id → g.Denotes I scaleBits o d := by
      intro o
      by_cases ho : o ∈ g.operands id
      · obtain ⟨d, hd⟩ := ih (rank o) (hrank id o ho) (h.mem_ids_of_mem_operands hv ho) rfl
        exact ⟨d, fun _ => hd⟩
      · exact ⟨⟨.raw, I.input "" .raw⟩, fun hmem => absurd hmem ho⟩
    choose value hvalue using hargs
    have hlen : ((g.operands id).map value).length = op.arity := by
      rw [List.length_map, h.arity _ hop]
    obtain ⟨d, hd⟩ := I.apply_isSome scaleBits hlen
    exact ⟨d, .node ((op?_eq_ok h.ascending).mpr hop) hvalue hd⟩

theorem Sound.exists_solves (I : Interpretation V) (scaleBits : Nat) (h : g.Sound)
    (hv : g.hidden = []) (hrank : g.Ranked rank) : ∃ v, g.Solves I scaleBits v := by
  have hall : ∀ id, ∃ d, id ∈ g.ids → g.Denotes I scaleBits id d := by
    intro id
    by_cases hid : id ∈ g.ids
    · obtain ⟨d, hd⟩ := h.exists_denotes hv hrank hid
      exact ⟨d, fun _ => hd⟩
    · exact ⟨⟨.raw, I.input "" .raw⟩, fun hmem => absurd hmem hid⟩
  choose v hval using hall
  refine ⟨v, ?_⟩
  intro n hn
  obtain ⟨hop, hargs, hd⟩ := hval n.id (mem_ids_of_mem_nodes hn)
  cases hop.symm.trans ((op?_eq_ok h.ascending).mpr hn)
  rwa [List.map_congr_left fun o ho => (hargs o ho).unique
    (hval o (h.mem_ids_of_mem_operands hv ho))] at hd

theorem exists_solves (I : Interpretation V) (scaleBits : Nat) (h : g.Wellformed)
    (hrank : g.Ranked rank) : ∃ v, g.Solves I scaleBits v :=
  h.toSound.exists_solves I scaleBits h.visible hrank

theorem type_of_apply {op : Operation} {args : List (Meaning V)} {d : Meaning V}
    (hd : I.apply scaleBits op args = some d) : d.type = op.result (args.map (·.type)) := by
  unfold Interpretation.apply at hd
  split at hd <;> cases hd <;> simp [Interpretation.arithmetic, Operation.result]

theorem Sound.typed_of_solves (h : g.Sound) (hv : g.hidden = []) (hs : g.Solves I scaleBits v)
    (hrank : g.Ranked rank) (ht : g.Typed t) {id : NodeId} (hid : id ∈ g.ids) :
    t.find? id = some (v id).type := by
  induction hn : rank id using Nat.strongRecOn generalizing id with
  | ind n ih =>
    subst hn
    obtain ⟨op, hop⟩ := exists_node_of_mem_ids hid
    have hargs : (g.operands id).map t.find? = (((g.operands id).map v).map (·.type)).map some := by
      rw [List.map_map, List.map_map]
      exact List.map_congr_left fun o ho =>
        ih (rank o) (hrank id o ho) (h.mem_ids_of_mem_operands hv ho) rfl
    rw [ht.find?_eq h hop hargs, type_of_apply (hs _ hop)]

theorem Solves.typed (hs : g.Solves I scaleBits v) (h : g.Wellformed) (hrank : g.Ranked rank)
    (ht : g.Typed t) {id : NodeId} (hid : id ∈ g.ids) : t.find? id = some (v id).type :=
  h.toSound.typed_of_solves h.visible hs hrank ht hid

end Graph

end CipherGraph

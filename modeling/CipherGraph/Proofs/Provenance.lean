import CipherGraph.Proofs.Acyclicity
import CipherGraph.Proofs.Depths

/-! # Where classes come from

An encrypted input makes encrypted whatever reads it, and so does in turn what reads that, up to
an encoding. The class of a node is the largest that reaches it so, and grows with the classes of
the inputs.
-/

namespace CipherGraph

/-- An input with another class. Other operations stay as they are. -/
def Operation.retype (c : ValueClass) : Operation → Operation
  | .input name _ => .input name c
  | op => op

namespace Graph

variable {g g' : Graph} {t : Typing} {id start : NodeId} {c : ValueClass}

def Encodes (g : Graph) (id : NodeId) : Prop :=
  ∃ scaleBits level, ⟨id, .encode scaleBits level⟩ ∈ g.nodes

/-- A path of operands leads from `start` to the node, with no encoding after `start`. -/
def Carries (g : Graph) (start id : NodeId) : Prop :=
  ∃ path, g.OperandPath id (path ++ [start]) ∧ ∀ k ∈ path, ¬g.Encodes k

/-- A path leads from an encrypted input to the node, with no encoding on it. -/
def Encrypted (g : Graph) (id : NodeId) : Prop :=
  ∃ start name path, ⟨start, .input name .cipher⟩ ∈ g.nodes ∧
    g.OperandPath id (path ++ [start]) ∧ ∀ k ∈ path ++ [start], ¬g.Encodes k

/-- A path leads from an encoded input or an encoding to the node, with no further encoding. -/
def Encoded (g : Graph) (id : NodeId) : Prop :=
  ∃ start, ((∃ name, ⟨start, .input name .plain⟩ ∈ g.nodes) ∨ g.Encodes start) ∧
    g.Carries start id

theorem carries_iff : g.Carries start id ↔
    start = id ∨ ¬g.Encodes id ∧ ∃ o ∈ g.operands id, g.Carries start o := by
  constructor
  · rintro ⟨path, hpath, hfree⟩
    cases path with
    | nil =>
      cases hpath with
      | single => exact .inl rfl
      | cons _ hrest => cases hrest
    | cons k path =>
      obtain ⟨hk, hfree⟩ := List.forall_mem_cons.mp hfree
      generalize hlist : (k :: path) ++ [start] = list at hpath
      cases hpath with
      | single => simp at hlist
      | cons ho hrest =>
        obtain ⟨rfl, rfl⟩ := List.cons_eq_cons.mp hlist
        exact .inr ⟨hk, _, ho, path, hrest, hfree⟩
  · rintro (rfl | ⟨hid, o, ho, path, hpath, hfree⟩)
    · exact ⟨[], .single start, by simp⟩
    · exact ⟨id :: path, .cons ho hpath, List.forall_mem_cons.mpr ⟨hid, hfree⟩⟩

theorem Sound.encodes_iff (h : g.Sound) {op : Operation} (hn : ⟨id, op⟩ ∈ g.nodes) :
    g.Encodes id ↔ ∃ scaleBits level, op = .encode scaleBits level := by
  constructor
  · rintro ⟨scaleBits, level, hn'⟩
    exact ⟨scaleBits, level, congrArg Node.op (h.node_eq hn hn' rfl)⟩
  · rintro ⟨scaleBits, level, rfl⟩
    exact ⟨scaleBits, level, hn⟩

theorem le_result_iff {op : Operation} {classes : List ValueClass} (hc : c ≠ .raw)
    (hleaf : op.arity = 0 → classes = []) :
    c ≤ op.result classes ↔
      c ≤ op.result [] ∨ (¬∃ scaleBits level, op = .encode scaleBits level) ∧
        ∃ d ∈ classes, c ≤ d := by
  cases op with
  | encode => simp [Operation.result]
  | constant | input => simp [hleaf rfl]
  | _ => simp [Operation.result, ValueClass.le_foldl_join, ValueClass.le_raw, hc]

theorem cipher_le_result_nil {op : Operation} :
    .cipher ≤ op.result [] ↔ ∃ name, op = .input name .cipher := by
  rw [ValueClass.cipher_le]
  cases op <;> simp [Operation.result]

theorem plain_le_result_nil {op : Operation} :
    .plain ≤ op.result [] ↔ (∃ name, op = .input name .cipher) ∨
      (∃ name, op = .input name .plain) ∨ ∃ scaleBits level, op = .encode scaleBits level := by
  rw [ValueClass.plain_le]
  cases op with
  | input name c => cases c <;> simp [Operation.result]
  | _ => simp [Operation.result]

/-- A class that is not raw has its reason at the end of a path. -/
theorem Typed.le_iff (ht : g.Typed t) (h : g.Sound) (hv : g.hidden = []) {rank : NodeId → Nat}
    (hrank : g.Ranked rank) (hc : c ≠ .raw) (hid : id ∈ g.ids) {d : ValueClass}
    (hd : t.find? id = some d) :
    c ≤ d ↔ ∃ n ∈ g.nodes, c ≤ n.op.result [] ∧ g.Carries n.id id := by
  induction hr : rank id using Nat.strongRecOn generalizing id d with
  | ind r ih =>
    subst hr
    obtain ⟨op, hn⟩ := exists_node_of_mem_ids hid
    cases hd.symm.trans ((typed_iff h hv).mp ht _ hn)
    have hleaf (hzero : op.arity = 0) : g.classes t id = [] := by
      rw [classes, List.length_eq_zero_iff.mp ((h.arity _ hn).trans hzero), List.filterMap_nil]
    rw [le_result_iff hc hleaf, ← h.encodes_iff hn]
    have hoperand : (∃ k ∈ g.classes t id, c ≤ k) ↔
        ∃ o ∈ g.operands id, ∃ n ∈ g.nodes, c ≤ n.op.result [] ∧ g.Carries n.id o := by
      constructor
      · rintro ⟨k, hk, hle⟩
        obtain ⟨o, ho, hfound⟩ := List.mem_filterMap.mp hk
        have hmem := h.mem_ids_of_mem_operands hv ho
        exact ⟨o, ho, (ih _ (hrank id o ho) hmem hfound rfl).mp hle⟩
      · rintro ⟨o, ho, hsource⟩
        have hmem := h.mem_ids_of_mem_operands hv ho
        obtain ⟨k, hfound⟩ := ht.found hmem
        exact ⟨k, List.mem_filterMap.mpr ⟨o, ho, hfound⟩,
          (ih _ (hrank id o ho) hmem hfound rfl).mpr hsource⟩
    rw [hoperand]
    constructor
    · rintro (hself | ⟨hfree, o, ho, n, hn', hle, hcarries⟩)
      · exact ⟨_, hn, hself, carries_iff.mpr (.inl rfl)⟩
      · exact ⟨n, hn', hle, carries_iff.mpr (.inr ⟨hfree, o, ho, hcarries⟩)⟩
    · rintro ⟨⟨start, op'⟩, hn', hle, hcarries⟩
      rcases carries_iff.mp hcarries with rfl | ⟨hfree, o, ho, hcarries⟩
      · cases h.node_eq hn hn' rfl
        exact .inl hle
      · exact .inr ⟨hfree, o, ho, _, hn', hle, hcarries⟩

theorem Sound.encrypted_iff (h : g.Sound) :
    g.Encrypted id ↔ ∃ n ∈ g.nodes, .cipher ≤ n.op.result [] ∧ g.Carries n.id id := by
  constructor
  · rintro ⟨start, name, path, hn, hpath, hfree⟩
    exact ⟨_, hn, cipher_le_result_nil.mpr ⟨name, rfl⟩, path, hpath,
      fun k hk => hfree k (List.mem_append_left _ hk)⟩
  · rintro ⟨⟨start, op⟩, hn, hle, path, hpath, hfree⟩
    obtain ⟨name, rfl⟩ := cipher_le_result_nil.mp hle
    refine ⟨start, name, path, hn, hpath, fun k hk => ?_⟩
    rcases List.mem_append.mp hk with hk | hk
    · exact hfree k hk
    · cases List.mem_singleton.mp hk
      simp [h.encodes_iff hn]

theorem Sound.encrypted_or_encoded_iff (h : g.Sound) :
    g.Encrypted id ∨ g.Encoded id ↔
      ∃ n ∈ g.nodes, .plain ≤ n.op.result [] ∧ g.Carries n.id id := by
  rw [h.encrypted_iff]
  constructor
  · rintro (⟨n, hn, hle, hcarries⟩ | ⟨start, ⟨name, hn⟩ | ⟨scaleBits, level, hn⟩, hcarries⟩)
    · exact ⟨n, hn, plain_le_result_nil.mpr (.inl (cipher_le_result_nil.mp hle)), hcarries⟩
    · exact ⟨_, hn, plain_le_result_nil.mpr (.inr (.inl ⟨name, rfl⟩)), hcarries⟩
    · exact ⟨_, hn, plain_le_result_nil.mpr (.inr (.inr ⟨scaleBits, level, rfl⟩)), hcarries⟩
  · rintro ⟨⟨start, op⟩, hn, hle, hcarries⟩
    rcases plain_le_result_nil.mp hle with hinput | ⟨name, rfl⟩ | ⟨scaleBits, level, rfl⟩
    · exact .inl ⟨_, hn, cipher_le_result_nil.mpr hinput, hcarries⟩
    · exact .inr ⟨start, .inl ⟨name, hn⟩, hcarries⟩
    · exact .inr ⟨start, .inr ⟨scaleBits, level, hn⟩, hcarries⟩

def retype (g : Graph) (types : NodeId → ValueClass) : Graph :=
  { g with nodes := g.nodes.map fun n => ⟨n.id, n.op.retype (types n.id)⟩ }

section Retype

variable {types : NodeId → ValueClass}

theorem ids_retype : (g.retype types).ids = g.ids := by
  simp [ids, retype]

theorem encodes_retype : (g.retype types).Encodes id ↔ g.Encodes id := by
  constructor
  · rintro ⟨scaleBits, level, hn⟩
    obtain ⟨⟨k, op⟩, hn', heq⟩ := List.mem_map.mp hn
    cases op with
    | encode =>
      cases heq
      exact ⟨_, _, hn'⟩
    | _ => cases heq
  · rintro ⟨scaleBits, level, hn⟩
    exact ⟨scaleBits, level, List.mem_map.mpr ⟨_, hn, rfl⟩⟩

theorem Sound.retype (h : g.Sound) (types : NodeId → ValueClass) : (g.retype types).Sound where
  ascending := by
    rw [ids_retype]
    exact h.ascending
  sources e he := by
    rw [places, ids_retype]
    exact h.sources e he
  targets e he := by
    rw [places, ids_retype]
    exact h.targets e he
  arity n hn := by
    obtain ⟨⟨k, op⟩, hk, rfl⟩ := List.mem_map.mp hn
    have harity : (op.retype (types k)).arity = op.arity := by cases op <;> rfl
    exact (h.arity _ hk).trans harity.symm
  inputs := h.inputs
  outputs := h.outputs

theorem Carries.retype (h : g.Carries start id) (types : NodeId → ValueClass) :
    (g.retype types).Carries start id := by
  obtain ⟨path, hpath, hfree⟩ := h
  refine ⟨path, ?_, fun k hk => mt encodes_retype.mp (hfree k hk)⟩
  generalize path ++ [start] = list at hpath
  induction hpath with
  | single id => exact .single id
  | cons ho _ ih => exact .cons ho ih

theorem Typed.le_retype (ht : g.Typed t) (h : g.Sound) (hv : g.hidden = []) {rank : NodeId → Nat}
    (hrank : g.Ranked rank) {t' : Typing} (ht' : (g.retype types).Typed t')
    (hle : ∀ id name c, ⟨id, .input name c⟩ ∈ g.nodes → c ≤ types id) (hid : id ∈ g.ids)
    {d : ValueClass} (hc : t.find? id = some c) (hd : t'.find? id = some d) : c ≤ d := by
  by_cases hraw : c = .raw
  · subst hraw
    exact Nat.zero_le _
  · obtain ⟨n, hn, hsource, hcarries⟩ :=
      (ht.le_iff h hv hrank hraw hid hc).mp (Nat.le_refl _)
    have hid' : id ∈ (g.retype types).ids := by
      rw [ids_retype]
      exact hid
    rw [ht'.le_iff (h.retype types) hv hrank hraw hid' hd]
    refine ⟨_, List.mem_map_of_mem hn, ?_, hcarries.retype types⟩
    obtain ⟨k, op⟩ := n
    cases op with
    | input name e => exact Nat.le_trans hsource (hle k name e hn)
    | _ => exact hsource

end Retype

/-- An acyclic graph that hides no node has classes that follow from the paths to each node and
grow with the classes of the inputs. -/
theorem inferTypes_iff_reached (hg : g.Reachable) (hv : g.hidden = []) (ha : g.Acyclic) :
    ∃ t, g.inferTypes = .ok t ∧
      (∀ id, id ∈ g.ids ↔ ∃! c, t.find? id = some c) ∧
      (∀ id ∈ g.ids,
        (t.find? id = some .cipher ↔ g.Encrypted id) ∧
        (t.find? id = some .plain ↔ ¬g.Encrypted id ∧ g.Encoded id) ∧
        (t.find? id = some .raw ↔ ¬g.Encrypted id ∧ ¬g.Encoded id)) ∧
      ∀ types, (∀ id name c, ⟨id, .input name c⟩ ∈ g.nodes → c ≤ types id) →
        ∃ t', (g.retype types).inferTypes = .ok t' ∧
          ∀ id ∈ g.ids, ∃ c d, t.find? id = some c ∧ t'.find? id = some d ∧ c ≤ d := by
  have h := hg.sound
  obtain ⟨order, ho⟩ := (h.forwardOrder_iff_acyclic hv).mpr ha
  obtain ⟨rank, hrank⟩ := (h.forwardOrder_ok_iff hv).mp ⟨order, ho⟩
  obtain ⟨t, htypes⟩ := h.inferTypes_ok hv ho
  have ht := typed_of_inferTypes h htypes
  refine ⟨t, htypes, fun id => ?_, fun id hid => ?_, fun types hle => ?_⟩
  · constructor
    · intro hid
      obtain ⟨c, hc⟩ := ht.found hid
      exact ⟨c, hc, fun d hd => Option.some.inj (hd.symm.trans hc)⟩
    · rintro ⟨c, hc, -⟩
      exact mem_ids_of_inferTypes h htypes hc
  · obtain ⟨c, hc⟩ := ht.found hid
    have hcipher := ht.le_iff h hv hrank (c := .cipher) nofun hid hc
    have hplain := ht.le_iff h hv hrank (c := .plain) nofun hid hc
    rw [ValueClass.cipher_le, ← h.encrypted_iff] at hcipher
    rw [ValueClass.plain_le, ← h.encrypted_or_encoded_iff] at hplain
    rw [hc]
    cases c with
    | cipher => simp [hcipher.mp rfl]
    | plain =>
      have hfree : ¬g.Encrypted id := mt hcipher.mpr nofun
      simp [hfree, (hplain.mp nofun).resolve_left hfree]
    | raw =>
      have hfree := not_or.mp (mt hplain.mpr fun h => h rfl)
      simp [hfree]
  · have h' := h.retype types
    have hids : (g.retype types).ids = g.ids := ids_retype
    obtain ⟨order', ho'⟩ := (h'.forwardOrder_iff_acyclic hv).mpr ha
    obtain ⟨t', htypes'⟩ := h'.inferTypes_ok hv ho'
    have ht' := typed_of_inferTypes h' htypes'
    refine ⟨t', htypes', fun id hid => ?_⟩
    obtain ⟨c, hc⟩ := ht.found hid
    obtain ⟨d, hd⟩ := ht'.found (hids ▸ hid)
    exact ⟨c, d, hc, hd, ht.le_retype h hv hrank ht' hle hid hc hd⟩

/-- A product of an encrypted input and an encoding of a raw one, which is itself encoded. -/
def reencoded : Graph :=
  { blank "g" 1 ⟨0⟩ with
    nodes :=
      [⟨0, .input "x" .cipher⟩, ⟨1, .input "r" .raw⟩, ⟨2, .encode 0 0⟩, ⟨3, .arithmetic .mul⟩,
        ⟨4, .negate⟩, ⟨5, .encode 0 0⟩]
    edges :=
      [⟨⟨3, 0⟩, ⟨5, 0⟩, 0⟩, ⟨⟨1, 0⟩, ⟨4, 0⟩, 0⟩, ⟨⟨2, 0⟩, ⟨3, 0⟩, 1⟩, ⟨⟨0, 0⟩, ⟨3, 0⟩, 0⟩,
        ⟨⟨1, 0⟩, ⟨2, 0⟩, 0⟩]
    inputs := ⟨[("x", 0), ("r", 1)]⟩ }

theorem assembled_reencoded : reencoded.Assembled := by
  have hcreate : Graph.create "g" 1 ⟨0⟩ = .ok (.blank "g" 1 ⟨0⟩) := rfl
  have h₁ := (Assembled.create hcreate).extend ⟨[0]⟩ (.input "x" .cipher) [] rfl (by simp) rfl
  have h₂ := h₁.extend ⟨[1]⟩ (.input "r" .raw) [] rfl (by simp) rfl
  have h₃ := h₂.extend ⟨[2]⟩ (.encode 0 0) [1] rfl (by decide) trivial
  have h₄ := h₃.extend ⟨[3]⟩ (.arithmetic .mul) [0, 2] rfl (by decide) trivial
  have h₅ := h₄.extend ⟨[4]⟩ .negate [1] rfl (by decide) trivial
  exact h₅.extend ⟨[5]⟩ (.encode 0 0) [3] rfl (by decide) trivial

/-- The second encoding keeps what is encrypted from reaching further, and nothing reaches the
negation of the raw input, until that input is encrypted too. -/
theorem inferTypes_iff_reached_reencoded :
    reencoded.hidden = [] ∧ reencoded.Acyclic ∧
    ∃ t, reencoded.inferTypes = .ok t ∧ reencoded.Encrypted 3 ∧
      (¬reencoded.Encrypted 5 ∧ reencoded.Encoded 5) ∧
      (¬reencoded.Encrypted 4 ∧ ¬reencoded.Encoded 4) ∧
      ∃ t', (reencoded.retype fun _ => .cipher).inferTypes = .ok t' ∧
        ∀ id ∈ reencoded.ids, ∃ c d, t.find? id = some c ∧ t'.find? id = some d ∧ c ≤ d := by
  have horder : reencoded.forwardOrder = .ok [0, 1, 2, 3, 4, 5] := by cbv
  have htypes : reencoded.inferTypes = .ok ⟨[(0, .cipher), (1, .raw), (2, .plain), (3, .cipher),
      (4, .raw), (5, .plain)]⟩ := by cbv
  have hg := assembled_reencoded.reachable
  have ha := (hg.sound.forwardOrder_iff_acyclic rfl).mp ⟨_, horder⟩
  obtain ⟨t, ht, -, hclasses, hmono⟩ := inferTypes_iff_reached hg rfl ha
  cases ht.symm.trans htypes
  refine ⟨rfl, ha, _, ht, ?_, ?_, ?_, hmono _ fun id name c _ => ?_⟩
  · exact (hclasses 3 (by decide)).1.mp (by decide)
  · exact (hclasses 5 (by decide)).2.1.mp (by decide)
  · exact (hclasses 4 (by decide)).2.2.mp (by decide)
  · cases c <;> decide

/-- Where an id has come round, an acyclic graph may have no types. -/
theorem inferTypes_overtakenInput : overtakenInput.Reachable ∧ overtakenInput.Acyclic ∧
    overtakenInput.inferTypes = .error (.operandCycle 1) :=
  ⟨assembled_overtakenInput.reachable, acyclic_overtakenInput, by with_unfolding_all rfl⟩

end Graph

end CipherGraph

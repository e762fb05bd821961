import CipherGraph.Proofs.Compilation
import CipherGraph.Proofs.Supported
import CipherGraph.Proofs.Validity

/-! # The normal form of lowered graphs

A lowering visits the nodes in dependency order. What it has visited reads visited nodes only and
is as the scheme wants it, apart from nodes that were replaced, and these nobody reads any more. So
they are all dropped as dead, and a compiled graph has only operations that an execution can
evaluate, with ciphertexts in front.
-/

namespace CipherGraph

/-- Whether a scheme evaluates arithmetic on operands of these classes. A raw operand is never
combined with an encrypted one. -/
def SchemeKind.evaluates (kind : SchemeKind) : Arithmetic → ValueClass → ValueClass → Bool
  | _, .cipher, .raw | _, .raw, .cipher => false
  | .div, .cipher, _ => kind.capabilities.division
  | .sub, .plain, .cipher => kind.capabilities.plainMinusCipher
  | .div, .plain, .cipher => kind.capabilities.plainByCipherDivision
  | _, _, _ => true

/-- Whether a scheme evaluates an operation on operands of these classes. -/
def SchemeKind.executes (kind : SchemeKind) : Operation → List ValueClass → Bool
  | .aggregate _, _ => false
  | .arithmetic op, [lhs, rhs] => kind.evaluates op lhs rhs
  | .arithmetic _, _ => false
  | _, _ => true

theorem SchemeKind.evaluates_cipher {kind : SchemeKind} {op : Arithmetic} {c : ValueClass}
    (hop : op = .div → kind.capabilities.division = true) (hc : c ≠ .raw) :
    kind.evaluates op .cipher c = true := by
  cases c with
  | raw => exact absurd rfl hc
  | plain | cipher =>
    cases op with
    | div => exact hop rfl
    | _ => rfl

theorem SchemeKind.evaluates_clear (kind : SchemeKind) {op : Arithmetic} {a b : ValueClass}
    (ha : a.isCipher = false) (hb : b.isCipher = false) : kind.evaluates op a b = true := by
  cases a with
  | cipher => cases ha
  | raw | plain =>
    cases b with
    | cipher => cases hb
    | raw | plain => cases op <;> rfl

/-- Whether arithmetic on operands of these classes is left as it is: the scheme evaluates it, and
only a difference or a quotient has an encrypted operand after one that is not. -/
def SchemeKind.settles (kind : SchemeKind) (op : Arithmetic) (lhs rhs : ValueClass) : Bool :=
  kind.evaluates op lhs rhs && (lhs.isCipher || !rhs.isCipher || op = .sub || op = .div)

/-- Whether an operation on operands of these classes is in normal form. -/
def SchemeKind.normal (kind : SchemeKind) : Operation → List ValueClass → Bool
  | .aggregate _, _ => false
  | .constant value, _ => kind.holds value
  | .encode .., classes => classes.all (· = .raw)
  | .arithmetic op, [lhs, rhs] => kind.settles op lhs rhs
  | .arithmetic _, _ => false
  | _, _ => true

theorem SchemeKind.settles_cipher {kind : SchemeKind} {op : Arithmetic} {c : ValueClass}
    (hop : op = .div → kind.capabilities.division = true) (hc : c ≠ .raw) :
    kind.settles op .cipher c = true := by
  rw [settles, evaluates_cipher hop hc]
  rfl

theorem SchemeKind.settles_clear (kind : SchemeKind) {op : Arithmetic} {a b : ValueClass}
    (ha : a.isCipher = false) (hb : b.isCipher = false) : kind.settles op a b = true := by
  rw [settles, kind.evaluates_clear ha hb, hb]
  simp

theorem SchemeKind.normal_encode {kind : SchemeKind} {scaleBits level : Nat}
    {classes : List ValueClass} :
    kind.normal (.encode scaleBits level) classes = true ↔ ∀ c ∈ classes, c = .raw := by
  simp [normal]

theorem SchemeKind.executes_of_normal {kind : SchemeKind} {op : Operation}
    {classes : List ValueClass} (h : kind.normal op classes = true) :
    kind.executes op classes = true := by
  cases op with
  | aggregate => exact h
  | arithmetic op =>
    match classes with
    | [lhs, rhs] => exact (Bool.and_eq_true_iff.mp h).1
    | [] | [_] | _ :: _ :: _ :: _ => exact h
  | _ => rfl

/-- The class in which encrypted arithmetic reads an operand. -/
def ValueClass.encoded (c : ValueClass) : ValueClass := if c = .raw then .plain else c

theorem ValueClass.encoded_ne_raw (c : ValueClass) : c.encoded ≠ .raw := by
  cases c <;> simp [encoded]

theorem ValueClass.encoded_of_ne_raw {c : ValueClass} (h : c ≠ .raw) : c.encoded = c :=
  if_neg h

namespace Lower

variable {kind : SchemeKind} {rest dropped : List NodeId} {s s₁ s' : LoweringState}
  {id lhs rhs new : NodeId}

/-- How far a lowering has come: `rest` is still to be visited, in this order, and `dropped` has
been replaced. -/
structure Progress (kind : SchemeKind) (rest dropped : List NodeId) (s : LoweringState) : Prop where
  sound : s.graph.Sound
  visible : s.graph.hidden = []
  typed : s.graph.Typed s.types
  pending : ∀ id ∈ rest, id ∈ s.graph.ids
  distinct : rest.Nodup
  ordered : s.graph.Ordered rest
  settled : ∀ id ∉ rest, ∀ o ∈ s.graph.operands id, o ∉ rest
  unread : ∀ id ∈ dropped, ∀ k, id ∉ s.graph.operands k
  replaced : ∀ id ∈ dropped, ∃ op, ⟨id, .arithmetic op⟩ ∈ s.graph.nodes
  encodes : ∀ id scaleBits level, ⟨id, .encode scaleBits level⟩ ∈ s.graph.nodes →
    ∀ c ∈ s.graph.classes s.types id, c = .raw
  normal : ∀ n ∈ s.graph.nodes, n.id ∉ rest → n.id ∉ dropped →
    kind.normal n.op (s.graph.classes s.types n.id) = true

/-- A visited node of this class that has not been replaced. -/
structure Readable (rest dropped : List NodeId) (s : LoweringState) (id : NodeId)
    (type : ValueClass) : Prop where
  mem : id ∈ s.graph.ids
  visited : id ∉ rest
  kept : id ∉ dropped
  type : s.types.find? id = some type

/-- A state with more nodes, all of them visited, in which the others are as they were. -/
structure Advances (kind : SchemeKind) (rest dropped : List NodeId) (s s' : LoweringState) :
    Prop where
  progress : Progress kind rest dropped s'
  nodes : ∀ n ∈ s.graph.nodes, n ∈ s'.graph.nodes
  operands : ∀ id ∈ s.graph.ids, s'.graph.operands id = s.graph.operands id
  types : ∀ id ∈ s.graph.ids, s'.types.find? id = s.types.find? id

theorem Advances.ids (h : Advances kind rest dropped s s') (hid : id ∈ s.graph.ids) :
    id ∈ s'.graph.ids := by
  obtain ⟨n, hn, rfl⟩ := List.mem_map.mp hid
  exact Graph.mem_ids_of_mem_nodes (h.nodes n hn)

theorem Progress.advances (h : Progress kind rest dropped s) :
    Advances kind rest dropped s s :=
  ⟨h, fun _ hn => hn, fun _ _ => rfl, fun _ _ => rfl⟩

theorem Progress.reported (h : Progress kind rest dropped s) (report : LoweringReport) :
    Advances kind rest dropped s { s with report } := by
  refine ⟨?_, fun _ hn => hn, fun _ _ => rfl, fun _ _ => rfl⟩
  exact ⟨h.sound, h.visible, h.typed, h.pending, h.distinct, h.ordered, h.settled, h.unread,
    h.replaced, h.encodes, h.normal⟩

theorem Advances.trans (h : Advances kind rest dropped s s₁)
    (h' : Advances kind rest dropped s₁ s') : Advances kind rest dropped s s' where
  progress := h'.progress
  nodes n hn := h'.nodes n (h.nodes n hn)
  operands id hid := (h'.operands id (h.ids hid)).trans (h.operands id hid)
  types id hid := (h'.types id (h.ids hid)).trans (h.types id hid)

theorem Readable.advances {type : ValueClass} (hd : Readable rest dropped s id type)
    (h : Advances kind rest dropped s s') : Readable rest dropped s' id type :=
  ⟨h.ids hd.mem, hd.visited, hd.kept, (h.types id hd.mem).trans hd.type⟩

theorem Advances.classes (h : Advances kind rest dropped s s') (hs : Progress kind rest dropped s)
    (hid : id ∈ s.graph.ids) : s'.graph.classes s'.types id = s.graph.classes s.types id :=
  Graph.classes_congr (h.operands id hid) fun o ho =>
    h.types o (hs.sound.mem_ids_of_mem_operands hs.visible ho)

theorem Progress.emitted (hs : Progress kind rest dropped s) {op : Operation}
    {operands : List NodeId} {type : ValueClass} (hlen : operands.length = op.arity)
    (hread : ∀ o ∈ operands, ∃ c, Readable rest dropped s o c)
    (htype : op.result (operands.filterMap s.types.find?) = type)
    (hnormal : kind.normal op (operands.filterMap s.types.find?) = true) (hid : id ∉ s.graph.ids)
    (counters : IdCounters) :
    Advances kind rest dropped s
      { s with
        graph := s.graph.grow ⟨id, op⟩ operands
        types := s.types.insert id type
        counters } := by
  have hmem : ∀ o ∈ operands, o ∈ s.graph.ids := fun o ho => (hread o ho).elim fun _ h => h.mem
  have hne {k : NodeId} (hk : k ∈ s.graph.ids) : k ≠ id := by
    rintro rfl
    exact hid hk
  have htypes {k : NodeId} (hk : k ∈ s.graph.ids) :
      (s.types.insert id type).find? k = s.types.find? k :=
    OrderedMap.find?_insert_of_ne (Ne.symm (hne hk))
  have hself : (s.graph.grow ⟨id, op⟩ operands).operands id = operands :=
    Graph.operands_grow_self hs.sound.targets
  have hkeep {k : NodeId} (hk : k ≠ id) :
      (s.graph.grow ⟨id, op⟩ operands).operands k = s.graph.operands k :=
    Graph.operands_grow_of_ne hk
  have hclasses : (s.graph.grow ⟨id, op⟩ operands).classes (s.types.insert id type) id =
      operands.filterMap s.types.find? := Graph.classes_grow_self hs.sound hid hmem type
  have hclasses' {k : NodeId} (hk : k ≠ id) :
      (s.graph.grow ⟨id, op⟩ operands).classes (s.types.insert id type) k =
        s.graph.classes s.types k := Graph.classes_grow_of_ne hs.sound hid hs.visible hk type
  have hsound : (s.graph.grow ⟨id, op⟩ operands).Sound := hs.sound.grow hlen hmem
  have hvisible : (s.graph.grow ⟨id, op⟩ operands).hidden = [] := by
    exact Graph.grow_hidden_eq_nil.mpr ⟨hid, hs.visible⟩
  have hnodes {n : Node} : n ∈ (s.graph.grow ⟨id, op⟩ operands).nodes ↔
      n = ⟨id, op⟩ ∨ n ∈ s.graph.nodes ∧ n.id ≠ id := by
    rw [Graph.grow_nodes]
    exact Graph.mem_placeNode hs.sound.ascending
  refine ⟨⟨hsound, hvisible, ?_, ?_, hs.distinct, ?_, ?_, ?_, ?_, ?_, ?_⟩, ?_, ?_, ?_⟩
  · refine (Graph.typed_iff hsound hvisible).mpr fun n hn => ?_
    rcases hnodes.mp hn with rfl | ⟨hn, hnid⟩
    · rw [hclasses, htype, OrderedMap.find?_insert_self]
    · rw [hclasses' hnid, htypes (Graph.mem_ids_of_mem_nodes hn)]
      exact (Graph.typed_iff hs.sound hs.visible).mp hs.typed n hn
  · exact fun k hk => Graph.mem_ids_grow.mpr (.inr (hs.pending k hk))
  · refine hs.ordered.mono fun k hk o ho _ => ?_
    rwa [hkeep (hne (hs.pending k hk))] at ho
  · intro k hk o ho
    by_cases hkid : k = id
    · subst hkid
      rw [hself] at ho
      exact (hread o ho).elim fun _ h => h.visited
    · rw [hkeep hkid] at ho
      exact hs.settled k hk o ho
  · intro d hd k hk
    by_cases hkid : k = id
    · subst hkid
      rw [hself] at hk
      exact (hread d hk).elim fun _ h => h.kept hd
    · rw [hkeep hkid] at hk
      exact hs.unread d hd k hk
  · intro d hd
    obtain ⟨a, ha⟩ := hs.replaced d hd
    exact ⟨a, Graph.mem_nodes_grow_of_mem hs.sound hid ha⟩
  · intro k scaleBits level hk
    rcases hnodes.mp hk with heq | ⟨hk, hkid⟩
    · cases heq
      rw [hclasses]
      exact SchemeKind.normal_encode.mp hnormal
    · rw [hclasses' hkid]
      exact hs.encodes k scaleBits level hk
  · intro n hn hrest hdropped
    rcases hnodes.mp hn with rfl | ⟨hn, hnid⟩
    · rw [hclasses]
      exact hnormal
    · rw [hclasses' hnid]
      exact hs.normal n hn hrest hdropped
  · exact fun n hn => Graph.mem_nodes_grow_of_mem hs.sound hid hn
  · exact fun k hk => hkeep (hne hk)
  · exact fun k hk => htypes hk

theorem runs_emit_progress (hs : Progress kind rest dropped s) {op : Operation}
    {operands : List NodeId} {type : ValueClass} (hop : op.isOriginal = false)
    (hread : ∀ o ∈ operands, ∃ c, Readable rest dropped s o c)
    (htype : op.result (operands.filterMap s.types.find?) = type)
    (hnormal : kind.normal op (operands.filterMap s.types.find?) = true)
    (h : Runs (emit op operands type) s (.ok id) s') (hv : s'.graph.hidden = []) :
    Advances kind rest dropped s s' ∧ Readable rest dropped s' id type := by
  rcases runs_emit hop h with ⟨k, graph, counters, hm, hk, rfl⟩ | ⟨_, -, hr, -⟩
  · cases hk
    obtain ⟨hlen, -, -, -, -, rfl⟩ := Graph.makeNode_ok.mp hm
    rw [Graph.declare_of_isOriginal hop] at hv ⊢
    have hid : id ∉ s.graph.ids := (Graph.grow_hidden_eq_nil.mp hv).1
    refine ⟨hs.emitted hlen hread htype hnormal hid counters, ?_⟩
    refine ⟨Graph.mem_ids_grow.mpr (.inl rfl), fun hrest => hid (hs.pending id hrest), ?_,
      OrderedMap.find?_insert_self⟩
    intro hdropped
    obtain ⟨_, hn⟩ := hs.replaced id hdropped
    exact hid (Graph.mem_ids_of_mem_nodes hn)
  · cases hr

variable {o : LoweringOptions} {op : Arithmetic} {a b : ValueClass} {r : Option NodeId}

theorem runs_encodeRaw_progress (hs : Progress kind rest dropped s)
    (hd : Readable rest dropped s id a) (h : Runs (encodeRaw o id a) s (.ok new) s')
    (hv : s'.graph.hidden = []) :
    Advances kind rest dropped s s' ∧ Readable rest dropped s' new a.encoded := by
  unfold encodeRaw at h
  split at h
  · next hraw =>
    have hrep := hs.reported { s.report with encodesInserted := s.report.encodesInserted + 1 }
    have hencode : kind.normal (.encode o.scaleBits 0) ([id].filterMap s.types.find?) = true := by
      rw [List.filterMap_cons_some hd.type, hraw]
      rfl
    obtain ⟨hadv, hnew⟩ := runs_emit_progress hrep.progress rfl (by
      intro k hk
      rw [List.mem_singleton.mp hk]
      exact ⟨a, hd.advances hrep⟩) rfl hencode (runs_modify_bind.mp h) hv
    refine ⟨hrep.trans hadv, ?_⟩
    rw [hraw]
    exact hnew
  · next hraw =>
    obtain ⟨hid, rfl⟩ := runs_pure.mp h
    cases hid
    rw [ValueClass.encoded_of_ne_raw hraw]
    exact ⟨hs.advances, hd⟩

theorem runs_emitArithmetic_progress (hs : Progress kind rest dropped s)
    (hl : Readable rest dropped s lhs a) (hr : Readable rest dropped s rhs b)
    (hc : a = .cipher ∨ b = .cipher) (hsettled : kind.settles op a b = true)
    (h : Runs (emitArithmetic op lhs rhs) s (.ok new) s') (hv : s'.graph.hidden = []) :
    Advances kind rest dropped s s' ∧ Readable rest dropped s' new .cipher := by
  have hclasses : [lhs, rhs].filterMap s.types.find? = [a, b] := by
    rw [List.filterMap_cons_some hl.type, List.filterMap_cons_some hr.type, List.filterMap_nil]
  refine runs_emit_progress hs rfl ?_ ?_ ?_ h hv
  · intro k hk
    rcases List.mem_pair.mp hk with rfl | rfl
    · exact ⟨a, hl⟩
    · exact ⟨b, hr⟩
  · rw [hclasses]
    rcases hc with rfl | rfl
    · cases b <;> rfl
    · cases a <;> rfl
  · rw [hclasses]
    exact hsettled

/-- What a search for a replacement of an operation leaves behind: an operation that can stay, or
an encrypted node to take its place. -/
structure Rewrites (kind : SchemeKind) (rest dropped : List NodeId) (s : LoweringState)
    (op : Arithmetic) (a b : ValueClass) (r : Option NodeId) (s' : LoweringState) : Prop where
  advances : Advances kind rest dropped s s'
  stays : r = none → kind.settles op a b = true
  replaced : ∀ new, r = some new → Readable rest dropped s' new .cipher

theorem Rewrites.trans (h : Advances kind rest dropped s s₁)
    (hr : Rewrites kind rest dropped s₁ op a b r s') : Rewrites kind rest dropped s op a b r s' :=
  ⟨h.trans hr.advances, hr.stays, hr.replaced⟩

theorem rewrites_of_node {m : Lower NodeId}
    (hm : ∀ new, Runs m s (.ok new) s' →
      Advances kind rest dropped s s' ∧ Readable rest dropped s' new .cipher)
    (h : Runs (do return some (← m)) s (.ok r) s') : Rewrites kind rest dropped s op a b r s' := by
  obtain ⟨new, _, h₁, hrest⟩ := runs_bind_ok.mp h
  obtain ⟨hr, rfl⟩ := runs_pure.mp hrest
  cases hr
  obtain ⟨hadv, hnew⟩ := hm new h₁
  exact ⟨hadv, by rintro ⟨⟩, by rintro _ ⟨⟩; exact hnew⟩

theorem runs_again_progress (hs : Progress kind rest dropped s)
    (hl : Readable rest dropped s lhs a.encoded) (hr : Readable rest dropped s rhs b.encoded)
    (hc : a = .cipher ∨ b = .cipher) (hsettled : kind.settles op a.encoded b.encoded = true)
    (h : Runs (again op lhs rhs a b) s (.ok r) s') (hv : s'.graph.hidden = []) :
    Rewrites kind rest dropped s op a b r s' := by
  have hc' : a.encoded = .cipher ∨ b.encoded = .cipher := by
    rcases hc with rfl | rfl
    · exact .inl rfl
    · exact .inr rfl
  unfold again at h
  split at h
  · exact rewrites_of_node (fun _ h => runs_emitArithmetic_progress hs hl hr hc' hsettled h hv) h
  · next hraw =>
    obtain ⟨hnone, rfl⟩ := runs_pure.mp h
    cases hnone
    simp only [Bool.or_eq_true, decide_eq_true_eq, not_or] at hraw
    rw [ValueClass.encoded_of_ne_raw hraw.1, ValueClass.encoded_of_ne_raw hraw.2] at hsettled
    exact ⟨hs.advances, fun _ => hsettled, by rintro _ ⟨⟩⟩

theorem runs_commute_progress (hs : Progress kind rest dropped s)
    (hl : Readable rest dropped s lhs a) (hr : Readable rest dropped s rhs .cipher)
    (ha : a ≠ .raw) (hop : op ≠ .div) {a' b' : ValueClass}
    (h : Runs (commute op lhs rhs) s (.ok r) s') (hv : s'.graph.hidden = []) :
    Rewrites kind rest dropped s op a' b' r s' := by
  have hrep := hs.reported { s.report with commuted := s.report.commuted + 1 }
  have hsettled : kind.settles op .cipher a = true :=
    SchemeKind.settles_cipher (fun h => absurd h hop) ha
  exact .trans hrep (rewrites_of_node (fun _ h => runs_emitArithmetic_progress hrep.progress
    (hr.advances hrep) (hl.advances hrep) (.inl rfl) hsettled h hv) (runs_modify_bind.mp h))

theorem runs_negateAndAdd_progress (hs : Progress kind rest dropped s)
    (hl : Readable rest dropped s lhs a) (hr : Readable rest dropped s rhs .cipher)
    (ha : a ≠ .raw) {a' b' : ValueClass} (h : Runs (negateAndAdd lhs rhs) s (.ok r) s')
    (hv : s'.graph.hidden = []) : Rewrites kind rest dropped s .sub a' b' r s' := by
  unfold negateAndAdd at h
  obtain ⟨negated, s₁, h₁, hrest⟩ := runs_bind_ok.mp h
  rw [count, runs_modify_bind] at hrest
  have hpath := Steps.bind (.emitArithmetic _ _ _) (fun _ => .pure _) _ _ _ hrest
  have hv₁ : s₁.graph.hidden = [] := hpath.hidden_eq_nil hv
  obtain ⟨hadv, hneg⟩ := runs_emit_progress hs rfl (by
      intro k hk
      rw [List.mem_singleton.mp hk]
      exact ⟨_, hr⟩) (by rw [List.filterMap_cons_some hr.type]; rfl) rfl h₁ hv₁
  have hrep := hadv.progress.reported
    { s₁.report with subsReplaced := s₁.report.subsReplaced + 1 }
  have hsettled : kind.settles .add .cipher a = true := SchemeKind.settles_cipher (by rintro ⟨⟩) ha
  exact .trans (hadv.trans hrep) (rewrites_of_node (fun _ h =>
    runs_emitArithmetic_progress hrep.progress (hneg.advances hrep)
      ((hl.advances hadv).advances hrep) (.inl rfl) hsettled h hv) hrest)

theorem runs_rewritten_progress (hs : Progress o.scheme rest dropped s)
    (hl : Readable rest dropped s lhs a.encoded) (hr : Readable rest dropped s rhs b.encoded)
    (hc : a = .cipher ∨ b = .cipher) (hdiv : op = .div → o.scheme.capabilities.division = true)
    (h : Runs (rewritten o id op lhs rhs a b) s (.ok r) s') (hv : s'.graph.hidden = []) :
    Rewrites o.scheme rest dropped s op a b r s' := by
  unfold rewritten at h
  split at h
  · next hlhs =>
    have ha : a = .cipher := by simpa [ValueClass.isCipher] using hlhs
    subst ha
    exact runs_again_progress hs hl hr hc
      (SchemeKind.settles_cipher hdiv b.encoded_ne_raw) h hv
  · next hlhs =>
    have ha : a ≠ .cipher := by simpa [ValueClass.isCipher] using hlhs
    have hb : b = .cipher := hc.resolve_left ha
    subst hb
    have ha' : a.encoded = .plain := by
      cases a with
      | cipher => exact absurd rfl ha
      | raw | plain => rfl
    split at h
    · exact runs_commute_progress hs hl hr a.encoded_ne_raw (by rintro ⟨⟩) h hv
    · exact runs_commute_progress hs hl hr a.encoded_ne_raw (by rintro ⟨⟩) h hv
    · split at h
      · next hcap =>
        refine runs_again_progress hs hl hr hc ?_ h hv
        rw [ha']
        exact Bool.and_eq_true_iff.mpr ⟨hcap, rfl⟩
      · exact runs_negateAndAdd_progress hs hl hr a.encoded_ne_raw h hv
    · split at h
      · next hcap =>
        refine runs_again_progress hs hl hr hc ?_ h hv
        rw [ha']
        exact Bool.and_eq_true_iff.mpr ⟨hcap, rfl⟩
      · cases (runs_throw.mp h).1

theorem runs_replacementOfEncrypted_progress (hs : Progress o.scheme rest dropped s)
    (hl : Readable rest dropped s lhs a) (hr : Readable rest dropped s rhs b)
    (hc : a = .cipher ∨ b = .cipher) (hdiv : op = .div → o.scheme.capabilities.division = true)
    (h : Runs (replacementOfEncrypted o id op lhs rhs a b) s (.ok r) s')
    (hv : s'.graph.hidden = []) : Rewrites o.scheme rest dropped s op a b r s' := by
  rw [replacementOfEncrypted_eq] at h
  obtain ⟨lhs', s₁, h₁, hrest⟩ := runs_bind_ok.mp h
  have hv₁ := Path.hidden_eq_nil
    (Steps.bind (.encodeRaw _ _ _) (fun _ => .rewritten _ _ _ _ _ _ _) _ _ _ hrest) hv
  obtain ⟨rhs', s₂, h₂, hrest⟩ := runs_bind_ok.mp hrest
  have hv₂ := Path.hidden_eq_nil (Steps.rewritten _ _ _ _ _ _ _ _ _ _ hrest) hv
  obtain ⟨hadv₁, hl'⟩ := runs_encodeRaw_progress hs hl h₁ hv₁
  obtain ⟨hadv₂, hr'⟩ := runs_encodeRaw_progress hadv₁.progress (hr.advances hadv₁) h₂ hv₂
  exact .trans (hadv₁.trans hadv₂)
    (runs_rewritten_progress hadv₂.progress (hl'.advances hadv₂) hr' hc hdiv hrest hv)

/-- What a search for a replacement of a node leaves behind: an operation in normal form, or an
encrypted node to take the place of arithmetic. -/
structure Resolves (kind : SchemeKind) (rest dropped : List NodeId) (s : LoweringState)
    (n : Node) (r : Option NodeId) (s' : LoweringState) : Prop where
  advances : Advances kind rest dropped s s'
  stays : r = none → kind.normal n.op (s.graph.classes s.types n.id) = true
  replaced : ∀ new, r = some new → Readable rest dropped s' new .cipher ∧
    s.types.find? n.id = some .cipher ∧ ∃ op, n.op = .arithmetic op

theorem runs_replacementOfArithmetic_progress (hs : Progress o.scheme rest dropped s)
    (hn : ⟨id, .arithmetic op⟩ ∈ s.graph.nodes)
    (hread : ∀ k ∈ s.graph.operands id, k ∉ rest)
    (h : Runs (replacementOfArithmetic o id op) s (.ok r) s') (hv : s'.graph.hidden = []) :
    Resolves o.scheme rest dropped s ⟨id, .arithmetic op⟩ r s' := by
  obtain ⟨lhs, rhs, a, b, hoperands, ha, hb, hclasses⟩ :=
    Graph.exists_arithmetic_operands hs.sound hs.visible (fun _ => hs.typed.found) hn
  rw [runs_replacementOfArithmetic_iff hoperands ha hb] at h
  have hreadable (k : NodeId) (c : ValueClass) (hk : k ∈ [lhs, rhs])
      (hc : s.types.find? k = some c) : Readable rest dropped s k c := by
    rw [← hoperands] at hk
    exact ⟨hs.sound.mem_ids_of_mem_operands hs.visible hk, hread k hk,
      fun hd => hs.unread k hd id hk, hc⟩
  split at h
  · cases (runs_throw.mp h).1
  · next hdiv =>
    split at h
    · next hc =>
      have hc : a = .cipher ∨ b = .cipher := by simpa [ValueClass.isCipher] using hc
      have hdiv : op = .div → o.scheme.capabilities.division = true := by
        rintro rfl
        by_contra hcap
        rcases hc with rfl | rfl <;> exact hdiv (by simp [hcap, ValueClass.isCipher])
      have hrw := runs_replacementOfEncrypted_progress hs (hreadable lhs a (by simp) ha)
        (hreadable rhs b (by simp) hb) hc hdiv h hv
      refine ⟨hrw.advances, fun hnone => ?_, fun new hnew => ⟨hrw.replaced new hnew, ?_, op, rfl⟩⟩
      · rw [hclasses]
        exact hrw.stays hnone
      · rw [(Graph.typed_iff hs.sound hs.visible).mp hs.typed _ hn]
        dsimp only
        rw [hclasses]
        rcases hc with rfl | rfl
        · cases b <;> rfl
        · cases a <;> rfl
    · next hc =>
      obtain ⟨hnone, rfl⟩ := runs_pure.mp h
      cases hnone
      simp only [Bool.or_eq_true, not_or, Bool.not_eq_true] at hc
      refine ⟨hs.advances, fun _ => ?_, by rintro _ ⟨⟩⟩
      rw [hclasses]
      exact SchemeKind.settles_clear _ hc.1 hc.2

theorem runs_replacement_progress (hs : Progress o.scheme rest dropped s) {n : Node}
    (hn : n ∈ s.graph.nodes) (hread : ∀ k ∈ s.graph.operands n.id, k ∉ rest)
    (h : Runs (replacement? o n.id) s (.ok r) s') (hv : s'.graph.hidden = []) :
    Resolves o.scheme rest dropped s n r s' := by
  obtain ⟨id, operation⟩ := n
  have hstay (hnormal : o.scheme.normal operation (s.graph.classes s.types id) = true)
      (h : r = none ∧ s' = s) : Resolves o.scheme rest dropped s ⟨id, operation⟩ r s' := by
    obtain ⟨rfl, rfl⟩ := h
    exact ⟨hs.advances, fun _ => hnormal, by rintro _ ⟨⟩⟩
  have hcheck (h : Runs (do
      checkRotation o id operation
      return none) s (.ok r) s') : r = none ∧ s' = s := by
    obtain ⟨_, _, hchecked, hrest⟩ := runs_bind_ok.mp h
    obtain ⟨hr, rfl⟩ := runs_pure.mp hrest
    unfold checkRotation at hchecked
    obtain ⟨_, _, htype, hguard⟩ := runs_bind_ok.mp hchecked
    obtain ⟨-, rfl⟩ := runs_typeOf_ok.mp htype
    split at hguard
    · cases (runs_throw.mp hguard).1
    · exact ⟨Except.ok.inj hr, (runs_pure.mp hguard).2⟩
  unfold replacement? at h
  rw [runs_get_bind, (Graph.op?_eq_ok hs.sound.ascending).mpr hn,
    runs_bind_of_ok (runs_ofGraph_ok operation)] at h
  cases operation with
  | aggregate => cases (runs_throw.mp h).1
  | arithmetic => exact runs_replacementOfArithmetic_progress hs hn hread h hv
  | rotateLeft | rotateRight => exact hstay rfl (hcheck h)
  | constant value =>
    dsimp only at h
    split at h
    · next hheld =>
      obtain ⟨hr, rfl⟩ := runs_pure.mp h
      exact hstay hheld ⟨Except.ok.inj hr, rfl⟩
    · cases (runs_throw.mp h).1
  | encode scaleBits level =>
    obtain ⟨hr, rfl⟩ := runs_pure.mp h
    exact hstay (SchemeKind.normal_encode.mpr (hs.encodes id scaleBits level hn))
      ⟨Except.ok.inj hr, rfl⟩
  | input | output | negate =>
    obtain ⟨hr, rfl⟩ := runs_pure.mp h
    exact hstay rfl ⟨Except.ok.inj hr, rfl⟩

/-- The next node and those before it read visited nodes only. -/
theorem Progress.reads_visited (hs : Progress kind (id :: rest) dropped s) {k : NodeId}
    (hk : k ∉ rest) : ∀ o ∈ s.graph.operands k, o ∉ id :: rest := by
  by_cases hkid : k = id
  · subst hkid
    cases hs.ordered with
    | cons hfirst _ => exact hfirst
  · exact hs.settled k (by simp [hkid, hk])

theorem Progress.passed (hs : Progress kind (id :: rest) dropped s)
    (hnormal : ∀ n ∈ s.graph.nodes, n.id = id →
      kind.normal n.op (s.graph.classes s.types n.id) = true) : Progress kind rest dropped s := by
  obtain ⟨hid, hdistinct⟩ := List.nodup_cons.mp hs.distinct
  cases hs.ordered with
  | cons _ hordered =>
    refine ⟨hs.sound, hs.visible, hs.typed, fun k hk => hs.pending k (List.mem_cons_of_mem _ hk),
      hdistinct, hordered, fun k hk o ho hmem => ?_, hs.unread, hs.replaced, hs.encodes,
      fun n hn hk hd => ?_⟩
    · exact hs.reads_visited hk o ho (List.mem_cons_of_mem _ hmem)
    · by_cases hnid : n.id = id
      · exact hnormal n hn hnid
      · exact hs.normal n hn (by simp [hnid, hk]) hd

/-- A node that gives way is not read any more, and whoever was visited keeps its operands. -/
theorem Progress.redirected (hs : Progress kind (id :: rest) dropped s)
    (hnew : Readable (id :: rest) dropped s new .cipher) (htype : s.types.find? id = some .cipher)
    (hop : ∃ op, ⟨id, .arithmetic op⟩ ∈ s.graph.nodes) {count : Nat} {graph : Graph}
    (hr : s.graph.replaceUses id new = .ok (count, graph)) :
    Progress kind rest (id :: dropped) { s with graph } := by
  obtain ⟨-, hmem, ⟨heq, -, -⟩ | ⟨hne, -, rfl⟩⟩ := Graph.replaceUses_eq_ok.mp hr
  · exact absurd (heq ▸ List.mem_cons_self) hnew.visited
  obtain ⟨hid, hdistinct⟩ := List.nodup_cons.mp hs.distinct
  have hvisited : new ∉ rest := fun h => hnew.visited (List.mem_cons_of_mem _ h)
  cases hs.ordered with | cons _ hordered
  -- A visited node does not read `id`, nor does `id` itself.
  have hkeep {k : NodeId} (hk : k ∉ rest) :
      (s.graph.redirect id new).operands k = s.graph.operands k :=
    Graph.operands_redirect_of_not_mem fun h => hs.reads_visited hk id h List.mem_cons_self
  have hmembers {k o : NodeId} (ho : o ∈ (s.graph.redirect id new).operands k) :
      o = new ∨ o ∈ s.graph.operands k ∧ o ≠ id := by
    rcases hs.sound.mem_operands_redirect hs.visible ho with ⟨hold, rfl | hoid⟩ | ⟨rfl, -⟩
    · refine .inr ⟨hold, ?_⟩
      rintro rfl
      exact hs.reads_visited hvisited _ hold List.mem_cons_self
    · exact .inr ⟨hold, hoid⟩
    · exact .inl rfl
  have hclasses (k : NodeId) : ((s.graph.redirect id new).classes s.types k).Perm
      (s.graph.classes s.types k) :=
    Graph.classes_redirect_perm hs.sound hs.visible (hnew.type.trans htype.symm) k
  have hsound : (s.graph.redirect id new).Sound := hs.sound.redirect hmem
  refine ⟨hsound, hs.visible, ?_, fun k hk => hs.pending k (List.mem_cons_of_mem _ hk), hdistinct,
    ?_, ?_, ?_, ?_, ?_, ?_⟩
  · refine (Graph.typed_iff hsound hs.visible).mpr fun n hn => ?_
    rw [n.op.result_perm (hclasses n.id)]
    exact (Graph.typed_iff hs.sound hs.visible).mp hs.typed n hn
  · refine hordered.mono fun k hk o ho hpending => ?_
    rcases hmembers ho with rfl | ⟨hold, -⟩
    · exact absurd hpending hvisited
    · exact hold
  · intro k hk o ho hmem
    rw [hkeep hk] at ho
    exact hs.reads_visited hk o ho (List.mem_cons_of_mem _ hmem)
  · intro d hd k hk
    rcases hmembers hk with rfl | ⟨hk, hne'⟩
    · rcases List.mem_cons.mp hd with rfl | hd
      · exact hne rfl
      · exact hnew.kept hd
    · rcases List.mem_cons.mp hd with rfl | hd
      · exact hne' rfl
      · exact hs.unread d hd k hk
  · intro d hd
    rcases List.mem_cons.mp hd with rfl | hd
    · exact hop
    · exact hs.replaced d hd
  · exact fun k scaleBits level hk c hc =>
      hs.encodes k scaleBits level hk c ((hclasses k).mem_iff.mp hc)
  · intro n hn hrest hd
    obtain ⟨hnid, hd⟩ := not_or.mp (mt List.mem_cons.mpr hd)
    have hsame : (s.graph.redirect id new).classes s.types n.id = s.graph.classes s.types n.id :=
      Graph.classes_congr (hkeep hrest) fun _ _ => rfl
    rw [hsame]
    exact hs.normal n hn (by simp [hnid, hrest]) hd

theorem runs_step_progress (hs : Progress o.scheme (id :: rest) dropped s)
    (h : Runs (step o id) s (.ok ()) s') (hv : s'.graph.hidden = []) :
    ∃ dropped', Progress o.scheme rest dropped' s' := by
  obtain ⟨n, hn, rfl⟩ := List.mem_map.mp (hs.pending id List.mem_cons_self)
  have hread := hs.reads_visited (List.nodup_cons.mp hs.distinct).1
  rcases runs_step h with
    ⟨r, h₁, hr, hok⟩ | ⟨new, s₁, h₁, ⟨count, graph, hu, -, rfl⟩ | ⟨_, -, he, -⟩⟩
  · have hnone : r = .ok none := by
      match r with
      | .ok none => rfl
      | .ok (some new) => exact absurd rfl (hr new)
      | .error e => cases hok
    rw [hnone] at h₁
    obtain ⟨hadv, hstays, -⟩ := runs_replacement_progress hs hn hread h₁ hv
    refine ⟨dropped, hadv.progress.passed fun k hk hkn => ?_⟩
    have hsame : k = n := hadv.progress.sound.node_eq hk (hadv.nodes n hn) hkn
    rw [hsame, hadv.classes hs (Graph.mem_ids_of_mem_nodes hn)]
    exact hstays rfl
  · have hv₁ : s₁.graph.hidden = [] := (Change.replaced hu).hidden_eq_nil hv
    obtain ⟨hadv, -, hreplaced⟩ := runs_replacement_progress hs hn hread h₁ hv₁
    obtain ⟨hnew, htype, op, hop⟩ := hreplaced new rfl
    refine ⟨n.id :: dropped, hadv.progress.redirected hnew ?_ ⟨op, ?_⟩ hu⟩
    · rw [hadv.types n.id (Graph.mem_ids_of_mem_nodes hn), htype]
    · rw [← hop]
      exact hadv.nodes n hn
  · cases he

theorem runs_steps_progress (hs : Progress o.scheme rest dropped s)
    (h : Runs (rest.forM (step o)) s (.ok ()) s') (hv : s'.graph.hidden = []) :
    ∃ dropped', Progress o.scheme [] dropped' s' := by
  induction rest generalizing dropped s with
  | nil =>
    obtain ⟨-, rfl⟩ := runs_pure.mp h
    exact ⟨dropped, hs⟩
  | cons id rest ih =>
    rw [List.forM] at h
    obtain ⟨_, s₁, h₁, hrest⟩ := runs_bind_ok.mp h
    have hv₁ := Path.hidden_eq_nil (Steps.forM (.step o) _ _ _ _ hrest) hv
    obtain ⟨dropped₁, hs₁⟩ := runs_step_progress hs h₁ hv₁
    exact ih hs₁ hrest

end Lower

namespace Graph

open Lower

variable {g : Graph} {t first : Typing} {c : IdCounters} {cg : CompiledGraph}

theorem progress_start (hg : g.Sound) (hv : g.hidden = []) (hvalid : g.validate = [])
    (ht : g.inferTypes = .ok t) {order : List NodeId} (ho : g.forwardOrder = .ok order)
    (kind : SchemeKind) (c : IdCounters) : Progress kind order [] (g.loweringStart t c) := by
  have hperm := forwardOrder_perm ho
  refine ⟨hg, hv, typed_of_inferTypes hg ht, fun id hid => hperm.mem_iff.mp hid,
    hperm.nodup_iff.mpr hg.nodup, hg.forwardOrder_ordered hv ho, fun id hid k hk => ?_,
    by simp, by simp, fun id scaleBits level hid c hc => ?_, fun n hn hid => ?_⟩
  · have hnone := hg.operands_of_not_mem hv fun h => hid (hperm.mem_iff.mpr h)
    exact absurd (hnone ▸ hk) List.not_mem_nil
  · obtain ⟨-, -, types, htypes, hraw⟩ := (validate_eq_nil_iff hg hv).mp hvalid
    cases ht.symm.trans htypes
    obtain ⟨k, hk, hkc⟩ := List.mem_filterMap.mp hc
    exact Option.some.inj (hkc.symm.trans (hraw id scaleBits level hid k hk))
  · exact absurd (hperm.mem_iff.mpr (mem_ids_of_mem_nodes hn)) hid

theorem lower_progress {o : LoweringOptions} (hg : g.Sound) (hvalid : g.validate = [])
    (ht : g.inferTypes = .ok t) (hok : (g.lower t o c).1 = .ok ())
    (hv : (g.lower t o c).2.graph.hidden = []) :
    ∃ dropped, Progress o.scheme [] dropped (g.lower t o c).2 := by
  obtain ⟨order, ho, -⟩ := Except.bind_eq_ok.mp ht
  have hvisible : g.hidden = [] := (path_lower g t o c).hidden_eq_nil hv
  have hs := progress_start hg hvisible hvalid ht ho o.scheme c
  have h := runs_lower g t o c
  unfold everyNode at h
  rw [hok, runs_get_bind, show (g.loweringStart t c).graph.forwardOrder = .ok order from ho,
    runs_bind_of_ok (runs_ofGraph_ok order)] at h
  exact runs_steps_progress hs h hv

theorem live_cases (hg : g.Sound) (hv : g.hidden = []) (hnamed : g.Named) {id : NodeId}
    (h : g.place id ∈ g.live) :
    (∃ name type, ⟨id, .input name type⟩ ∈ g.nodes) ∨ (∃ name, ⟨id, .output name⟩ ∈ g.nodes) ∨
      ∃ k, id ∈ g.operands k := by
  rcases mem_pending_or_source h with h | ⟨e, he, hsource⟩
  · obtain ⟨k, hk, hplace⟩ := List.mem_map.mp h
    cases g.place_injective hplace
    rcases List.mem_append.mp (List.mem_filter.mp hk).1 with hk | hk
    · obtain ⟨⟨name, _⟩, hentry, rfl⟩ := List.mem_map.mp hk
      exact .inr (.inl ⟨name, hnamed.outputs name _ hentry⟩)
    · obtain ⟨⟨name, _⟩, hentry, rfl⟩ := List.mem_map.mp hk
      exact .inl ⟨name, hnamed.inputs name _ hentry⟩
  · obtain ⟨-, htarget⟩ := (mem_places_of_visible hv).mp (hg.targets e he)
    exact .inr (.inr ⟨e.target.id,
      mem_operands.mpr ⟨e, mem_incoming.mpr ⟨he, htarget⟩, by rw [hsource, place]⟩⟩)

/-- Every operation of a compiled graph is in normal form, as long as no id was handed out
twice. -/
theorem Stages.normal {o : CompileOptions} (h : g.Stages o c first cg) (hg : g.Reachable)
    (hv : cg.graph.hidden = []) {n : Node} (hn : n ∈ cg.graph.nodes) :
    o.scheme.normal n.op (cg.graph.classes cg.types n.id) = true := by
  have hpath := path_lower g first ⟨o.scheme, o.scaleBits⟩ c
  have hreach := hpath.reachable hg
  have hsound := (h.reachable hg).sound
  have htypes := h.types
  rw [h.graph] at hv hn hsound htypes ⊢
  obtain ⟨dropped, hs⟩ := lower_progress hg.sound h.valid h.typed h.lowered hv
  obtain ⟨hn, hlive⟩ := mem_nodes_removeDead.mp hn
  have hkept : n.id ∉ dropped := by
    intro hd
    obtain ⟨op, hop⟩ := hs.replaced n.id hd
    have honly {op' : Operation} (h : ⟨n.id, op'⟩ ∈ (g.lower first _ c).2.graph.nodes) :
        op' = .arithmetic op :=
      congrArg Node.op (hs.sound.node_eq h hop rfl)
    rcases live_cases hs.sound hs.visible (hreach.named hs.visible) hlive with
      ⟨name, type, h⟩ | ⟨name, h⟩ | ⟨k, hk⟩
    · cases honly h
    · cases honly h
    · exact hs.unread n.id hd k hk
  have htyped : (g.lower first ⟨o.scheme, o.scaleBits⟩ c).2.graph.removeDead.2.Typed
      (g.lower first ⟨o.scheme, o.scaleBits⟩ c).2.types := by
    refine (typed_iff hsound hv).mpr fun k hk => ?_
    obtain ⟨hk, hklive⟩ := mem_nodes_removeDead.mp hk
    rw [classes, operands_removeDead hklive]
    exact (typed_iff hs.sound hs.visible).mp hs.typed k hk
  obtain ⟨order, ho, -⟩ := Except.bind_eq_ok.mp htypes
  obtain ⟨rank, hrank⟩ := (hsound.forwardOrder_ok_iff hv).mp ⟨order, ho⟩
  have hclasses : (g.lower first _ c).2.graph.removeDead.2.classes cg.types n.id =
      (g.lower first _ c).2.graph.classes (g.lower first _ c).2.types n.id :=
    classes_congr (operands_removeDead hlive) fun k hk =>
      (typed_of_inferTypes hsound htypes).unique htyped hsound hv hrank
        (hsound.mem_ids_of_mem_operands hv (by rwa [operands_removeDead hlive]))
  rw [hclasses]
  exact hs.normal n hn List.not_mem_nil hkept

theorem Stages.executes {o : CompileOptions} (h : g.Stages o c first cg) (hg : g.Reachable)
    (hv : cg.graph.hidden = []) {n : Node} (hn : n ∈ cg.graph.nodes) :
    o.scheme.executes n.op (cg.graph.classes cg.types n.id) = true :=
  SchemeKind.executes_of_normal (h.normal hg hv hn)

end Graph

end CipherGraph

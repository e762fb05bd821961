import CipherGraph.Blob.Values
import CipherGraph.Proofs.Discipline
import CipherGraph.Proofs.Encryption
import CipherGraph.Proofs.Heaps
import CipherGraph.Proofs.Primitives

/-! # Locality

A computation reads only the cells of the ciphertexts that it is given, and those that it has put
down itself. So it ends the same in all vaults that hold these, whatever has been released of the
others.
-/

namespace CipherGraph

open Vault (Alike)

section Rules

variable {ε α β : Type} {bad : ε → Bool} {K : Set (Nat × Nat)}

/-- In vaults that both hold the cells in `K`, the computation adds cells and ends the same, and not
with a bad failure. Both hold all cells of a larger set then, of which `Q` may say more. -/
def Local (bad : ε → Bool) (K : Set (Nat × Nat)) (m : ExceptT ε (StateM Vault) α)
    (Q : α → Set (Nat × Nat) → Prop) : Prop :=
  ∀ v w, Alike K v w → ∃ r L v' w', K ⊆ L ∧ Runs m v r v' ∧ Runs m w r w' ∧ Alike L v' w' ∧
    v.Adds v' ∧ Spares bad r ∧ ∀ a, r = .ok a → Q a L

variable {Q : α → Set (Nat × Nat) → Prop} {R : β → Set (Nat × Nat) → Prop}
  {m : ExceptT ε (StateM Vault) α} {f : α → ExceptT ε (StateM Vault) β}

theorem local_liftM {x : Except ε α} (hx : Spares bad x) (h : ∀ a, x = .ok a → Q a K) :
    Local bad K (liftM x) Q :=
  fun v w hvw => ⟨x, K, v, w, subset_rfl, runs_liftM.mpr ⟨rfl, rfl⟩, runs_liftM.mpr ⟨rfl, rfl⟩, hvw,
    .refl, hx, h⟩

theorem local_pure {a : α} (h : Q a K) : Local bad K (pure a) Q :=
  local_liftM (x := .ok a) (spares_ok a) (by rintro _ ⟨⟩; exact h)

theorem local_throw {e : ε} (h : bad e = false) : Local bad K (throw e) Q :=
  local_liftM (x := .error e) (spares_error h) nofun

theorem Local.bind (hm : Local bad K m Q) (hf : ∀ a L, K ⊆ L → Q a L → Local bad L (f a) R) :
    Local bad K (m >>= f) R := by
  intro v w hvw
  obtain ⟨r, L, v₁, w₁, hKL, hv, hw, hvw₁, hadds, hbad, hQ⟩ := hm v w hvw
  cases r with
  | error e =>
    refine ⟨.error e, L, v₁, w₁, hKL, ?_, ?_, hvw₁, hadds, spares_error (hbad e rfl), nofun⟩
    · exact runs_bind_error.mpr (.inl hv)
    · exact runs_bind_error.mpr (.inl hw)
  | ok a =>
    obtain ⟨r, M, v', w', hLM, hv', hw', hvw', hadds', hbad', hR⟩ :=
      hf a L hKL (hQ a rfl) v₁ w₁ hvw₁
    exact ⟨r, M, v', w', hKL.trans hLM, (runs_bind_of_ok hv).mpr hv', (runs_bind_of_ok hw).mpr hw',
      hvw', hadds.trans hadds', hbad', hR⟩

theorem Local.mono {Q' : α → Set (Nat × Nat) → Prop} (hm : Local bad K m Q)
    (h : ∀ a L, Q a L → Q' a L) : Local bad K m Q' := by
  intro v w hvw
  obtain ⟨r, L, v', w', hKL, hv, hw, hvw', hadds, hbad, hQ⟩ := hm v w hvw
  exact ⟨r, L, v', w', hKL, hv, hw, hvw', hadds, hbad, fun a ha => h a L (hQ a ha)⟩

theorem local_foldlM {l : List β} {b : α} {f : α → β → ExceptT ε (StateM Vault) α} (hb : Q b K)
    (hf : ∀ b L, K ⊆ L → Q b L → ∀ a ∈ l, Local bad L (f b a) Q) :
    Local bad K (l.foldlM f b) Q := by
  induction l generalizing b K with
  | nil => exact local_pure hb
  | cons a l ih =>
    rw [List.foldlM_cons]
    refine (hf b K subset_rfl hb a List.mem_cons_self).bind fun b' L hKL hb' => ih hb' ?_
    exact fun b L' hL hb a ha => hf b L' (hKL.trans hL) hb a (List.mem_cons_of_mem _ ha)

theorem local_mapM {l : List α} (hf : ∀ L, K ⊆ L → ∀ a ∈ l, Local bad L (f a) fun _ _ => True) :
    Local bad K (l.mapM f) fun _ _ => True := by
  induction l generalizing K with
  | nil => exact local_pure trivial
  | cons a l ih =>
    rw [List.mapM_cons]
    refine (hf K subset_rfl a List.mem_cons_self).bind fun _ L hL _ => ?_
    have hrest := ih fun L' hL' a ha => hf L' (hL.trans hL') a (List.mem_cons_of_mem _ ha)
    exact hrest.bind fun _ _ _ _ => local_pure trivial

theorem spares_mapM {l : List α} {g : α → Except ε β} (hg : ∀ a, Spares bad (g a)) :
    Spares bad (l.mapM g) := by
  induction l with
  | nil => exact spares_ok []
  | cons a l ih =>
    rw [List.mapM_cons]
    exact (hg a).bind fun _ _ => ih.bind fun _ _ => spares_ok _

end Rules

section Primitives

variable {α : Type} {K : Set (Nat × Nat)} {n : Native α} {Q : α → Set (Nat × Nat) → Prop}

/-- The failure of a primitive, as it appears in a blob. -/
def BlobError.isReleased : BlobError → Bool
  | .exec e => e.isReleased
  | _ => false

theorem Local.report {ε : Type} {bad : ε → Bool} {report : EvalError → ε}
    {m : ExceptT ε (StateM Vault) α} (h : Local EvalError.isReleased K n Q)
    (hm : ∀ {v r v'}, Runs m v r v' ↔ ∃ x, Runs n v x v' ∧ r = x.mapError report)
    (hbad : ∀ e, bad (report e) = e.isReleased) : Local bad K m Q := by
  intro v w hvw
  obtain ⟨x, L, v', w', hKL, hv, hw, hvw', hadds, hspares, hQ⟩ := h v w hvw
  refine ⟨_, L, v', w', hKL, hm.mpr ⟨x, hv, rfl⟩, hm.mpr ⟨x, hw, rfl⟩, hvw', hadds, ?_, ?_⟩
  · rintro _ he
    obtain e | a := x <;> cases he
    exact (hbad e).trans (hspares e rfl)
  · rintro a ha
    obtain e | a := x <;> cases ha
    exact hQ a rfl

theorem Local.atNode (h : Local EvalError.isReleased K n Q) (node : NodeId) :
    Local ExecError.isReleased K (n.atNode node) Q :=
  h.report runs_atNode fun e => e.isReleased_atNode node

theorem Local.alone (h : Local EvalError.isReleased K n Q) :
    Local ExecError.isReleased K n.alone Q :=
  h.report runs_alone fun e => e.isReleased_alone

theorem runs_inBlob {v v' : Vault} {r : Except BlobError α} :
    Runs n.inBlob v r v' ↔ ∃ x, Runs n v x v' ∧ r = x.mapError fun e => .exec e.alone := by
  unfold Runs
  have hrun : n.inBlob.run.run v =
      ((n.run.run v).1.mapError fun e => .exec e.alone, (n.run.run v).2) := by
    change n.inBlob v = _
    unfold Native.inBlob
    rcases n.run.run v with ⟨_ | _, _⟩ <;> rfl
  rw [hrun]
  constructor
  · rintro ⟨⟩
    exact ⟨_, rfl, rfl⟩
  · rintro ⟨x, hx, rfl⟩
    rw [hx]

theorem Local.inBlob (h : Local EvalError.isReleased K n Q) :
    Local BlobError.isReleased K n.inBlob Q :=
  h.report runs_inBlob fun e => e.isReleased_alone

end Primitives

namespace Gates

variable {K : Set (Nat × Nat)} {c d : Ciphertext}

def place (c : Ciphertext) : Nat × Nat := (c.context, c.handle)

theorem local_value (hc : place c ∈ K) :
    Local EvalError.isReleased K (value c) fun _ _ => True := by
  intro v w hvw
  obtain ⟨cell, hv, hw⟩ := hvw.cells _ _ hc
  exact ⟨.ok cell.value, K, v, w, subset_rfl, runs_value_ok.mpr ⟨⟨cell, hv, rfl⟩, rfl⟩,
    runs_value_ok.mpr ⟨⟨cell, hw, rfl⟩, rfl⟩, hvw, .refl, spares_ok _, fun _ _ => trivial⟩

theorem runs_alloc_some {v : Vault} {context : Nat} {heap : NativeHeap}
    (h : v.heap? context = some heap) (cell : NativeCell) :
    Runs (Native.alloc context cell) v (.ok heap.next)
      ⟨v.heaps.set context (heap.alloc cell).2⟩ := by
  unfold Native.alloc
  rw [runs_get_bind]
  simp only [h]
  rw [runs_set_bind]
  exact runs_pure.mpr ⟨rfl, rfl⟩

theorem runs_alloc_none {v : Vault} {context : Nat} (h : v.heap? context = none)
    (cell : NativeCell) : Runs (Native.alloc context cell) v (.error (.invalid .noHeap)) v := by
  unfold Native.alloc
  rw [runs_get_bind]
  simp only [h]
  exact runs_throw.mpr ⟨rfl, rfl⟩

theorem local_alloc (context : Context) (keyId : KeyId) (x : UInt8) :
    Local EvalError.isReleased K (alloc context keyId x) fun d L => place d ∈ L := by
  unfold alloc
  split
  · refine Local.bind (Q := fun handle L => (context.number, handle) ∈ L) (fun v w hvw => ?_)
      fun handle L _ hL => local_pure hL
    cases hheap : v.heap? context.number with
    | none =>
      exact ⟨_, K, v, w, subset_rfl, runs_alloc_none hheap _,
        runs_alloc_none (hvw.heap?_none hheap) _, hvw, .refl, spares_error rfl, nofun⟩
    | some heap =>
      obtain ⟨heap', hheap', hnext⟩ := hvw.heap? hheap
      refine ⟨.ok heap.next, _, _, _, Set.subset_insert _ K, runs_alloc_some hheap _,
        hnext ▸ runs_alloc_some hheap' _, hvw.alloc hheap hheap' hnext _, .alloc .refl hheap _,
        spares_ok _, ?_⟩
      rintro _ ⟨⟩
      exact Set.mem_insert _ K
  · exact local_throw rfl

theorem local_gate (ev : Evaluator) (hc : place c ∈ K) (f : UInt8 → UInt8) :
    Local EvalError.isReleased K (gate ev c f) fun d L => place d ∈ L := by
  unfold gate
  refine .bind (local_liftM (Q := fun _ _ => True)
    (Evaluator.spares_requireKeys rfl) fun _ _ => trivial) fun _ L hL _ => ?_
  exact (local_value (hL hc)).bind fun _ _ _ _ => local_alloc _ _ _

theorem spares_sameKey_released (expected found : KeyId) :
    Spares EvalError.isReleased (sameKey expected found) := by
  unfold sameKey
  split
  · exact spares_ok ()
  · exact spares_error rfl

theorem local_combine (op : Arithmetic) (ev : Evaluator) (hc : place c ∈ K) (hd : place d ∈ K) :
    Local EvalError.isReleased K (combine op ev c d) fun d L => place d ∈ L := by
  unfold combine second
  refine .bind (Q := fun _ _ => True) ?_ fun _ L hL _ => local_gate ev (hL hc) _
  refine .bind (local_liftM (Q := fun _ _ => True) (spares_sameKey_released _ _)
    fun _ _ => trivial) fun _ L hL _ => local_value (hL hd)

theorem local_combinePlain (op : Arithmetic) (ev : Evaluator) (hc : place c ∈ K) (p : Plaintext) :
    Local EvalError.isReleased K (combinePlain op ev c p) fun d L => place d ∈ L := by
  unfold combinePlain
  split
  · exact .bind (Q := fun _ _ => False) (local_throw rfl) fun _ _ _ h => h.elim
  · exact local_gate ev hc _

theorem local_combineLeft (op : Arithmetic) (ev : Evaluator) (p : Plaintext) (hc : place c ∈ K) :
    Local EvalError.isReleased K (combineLeft op ev p c) fun d L => place d ∈ L := by
  cases op with
  | add => exact local_combinePlain .add ev hc p
  | mul => exact local_combinePlain .mul ev hc p
  | sub => exact local_gate ev hc _
  | div => exact local_gate ev hc _

theorem local_decrypt (secret : SecretKey) (hc : place c ∈ K) :
    Local EvalError.isReleased K (decrypt secret c) fun _ _ => True := by
  unfold decrypt
  refine .bind (local_liftM (Q := fun _ _ => True) (spares_sameKey_released _ _)
    fun _ _ => trivial) fun _ L hL _ => ?_
  exact (local_value (hL hc)).bind fun _ _ _ _ => local_pure trivial

theorem local_writeCiphertext (hc : place c ∈ K) :
    Local EvalError.isReleased K (writeCiphertext c) fun _ _ => True :=
  (local_value hc).bind fun _ _ _ _ => local_pure trivial

theorem spares_readReceived {α : Type} [OfJson α] (bytes : Bytes) :
    Spares EvalError.isReleased (readReceived bytes : Except EvalError α) := by
  unfold readReceived
  split
  · exact spares_ok _
  · exact spares_error rfl

theorem local_readCiphertext (context : Context) (bytes : Bytes) :
    Local EvalError.isReleased K (readCiphertext context bytes) fun d L => place d ∈ L := by
  unfold readCiphertext
  refine .bind (local_liftM (Q := fun _ _ => True) (spares_readReceived bytes)
    fun _ _ => trivial) fun cell L hL _ => ?_
  split
  · exact .bind (Q := fun _ _ => False) (local_throw rfl) fun _ _ _ h => h.elim
  · exact local_alloc _ _ _

end Gates

/-- Computations of the gate-level family read the cells that they are given. -/
def cellDiscipline : Discipline Scheme.bitwise (Set (Nat × Nat)) where
  Holds K m Q := Local ExecError.isReleased K m Q
  Fits K c := Gates.place c ∈ K
  mono h hc := h hc
  pure h := local_pure h
  throw h := local_throw (ExecError.isMisfit_eq_false.mp h).2
  bind hm hf := hm.bind hf
  encode context slots _ _ := Gates.spares_encode (fun _ => rfl) context slots
  combine op ev node ha hb := (Gates.local_combine op ev ha hb).atNode node
  combinePlain op ev b node ha := (Gates.local_combinePlain op ev ha b).atNode node
  combineLeft op ev a node hb := (Gates.local_combineLeft op ev a hb).atNode node
  negate ev node hc := (Gates.local_gate ev hc _).atNode node
  rotate ev _ node hc := (Gates.local_gate ev hc _).atNode node

section Valuations

variable {K : Set (Nat × Nat)} {x : SchemeValuation Scheme.bitwise}

theorem SchemeValuation.mem_cells {cell : Nat × Nat} :
    cell ∈ x.cells ↔ ∃ name c, (name, .cipher c) ∈ x.entries ∧ Gates.place c = cell := by
  simp only [SchemeValuation.cells, OrderedMap.values, List.flatMap_map, List.mem_flatMap]
  constructor
  · rintro ⟨⟨name, y⟩, hy, hcell⟩
    cases y with
    | cipher c => exact ⟨name, c, hy, (List.mem_singleton.mp hcell).symm⟩
    | plain | raw => cases hcell
  · rintro ⟨name, c, hc, rfl⟩
    exact ⟨(name, .cipher c), hc, List.mem_singleton_self _⟩

theorem cells_of_suits (h : ∀ name y, (name, y) ∈ x.entries → cellDiscipline.Suits K y) :
    ∀ cell ∈ x.cells, cell ∈ K := by
  intro cell hcell
  obtain ⟨name, c, hc, rfl⟩ := SchemeValuation.mem_cells.mp hcell
  exact h name _ hc c rfl

theorem suits_of_cells (h : ∀ cell ∈ x.cells, cell ∈ K) {name : String}
    {y : Value Scheme.bitwise} (hy : (name, y) ∈ x.entries) : cellDiscipline.Suits K y := by
  rintro c rfl
  exact h _ (SchemeValuation.mem_cells.mpr ⟨name, c, hy, rfl⟩)

theorem local_encrypt (context : Context) (keyId : KeyId) (values : Valuation) (sig : Signature)
    (noise : String → Noise) :
    Local ExecError.isReleased K (encrypt Scheme.bitwise context keyId values sig noise)
      fun x L => ∀ cell ∈ x.cells, cell ∈ L :=
  Local.mono (Discipline.holds_encrypt (D := cellDiscipline)
    (fun _ _ => (Gates.local_alloc _ _ _).alone) values noise) fun _ _ h => cells_of_suits h

theorem local_readValue (context : Context) (name : String) (type : ValueClass) (data : Bytes) :
    Local BlobError.isReleased K (readValue Scheme.bitwise context name type data)
      fun y L => cellDiscipline.Suits L y := by
  unfold readValue
  cases type with
  | cipher =>
    exact (Gates.local_readCiphertext context data).inBlob.bind fun c L _ hc =>
      local_pure (Discipline.suits_cipher hc)
  | plain =>
    have hplain : Spares EvalError.isReleased (Gates.readPlaintext context data) :=
      (Gates.spares_readReceived data).bind fun _ _ => spares_ok _
    exact (Local.inBlob (Q := fun _ _ => True) (local_liftM hplain fun _ _ => trivial)).bind
      fun p _ _ _ => local_pure (Discipline.suits_plain (D := cellDiscipline) p)
  | raw =>
    have hraw : Spares BlobError.isReleased (readRaw Scheme.bitwise name data) := by
      unfold readRaw
      split
      · exact spares_error rfl
      · refine Spares.bind (spares_mapM fun y => ?_) fun _ _ => spares_ok _
        split
        · exact spares_ok _
        · exact spares_error rfl
    exact (local_liftM (Q := fun _ _ => True) hraw fun _ _ => trivial).bind
      fun slots _ _ _ => local_pure (Discipline.suits_raw (D := cellDiscipline) slots)

theorem local_readTagged (context : Context) (expected : ExpectedClasses) (name : String)
    (t : TaggedBytes) :
    Local BlobError.isReleased K (readTagged Scheme.bitwise context expected name t)
      fun y L => cellDiscipline.Suits L y := by
  unfold readTagged
  split
  · exact local_throw rfl
  · split
    · split
      · exact .bind (Q := fun _ _ => False) (local_throw rfl) fun _ _ _ h => h.elim
      · exact local_readValue _ _ _ _
    · exact local_readValue _ _ _ _

theorem spares_unwrap {α : Type} [OfJson α] (blob : Bytes) (kind : BlobKind)
    (scheme : SchemeKind) :
    Spares BlobError.isReleased (Envelope.unwrap blob kind scheme : Except BlobError α) := by
  unfold Envelope.unwrap
  refine Spares.bind ?_ fun e _ => ?_
  · unfold Envelope.peek
    split
    · exact spares_error rfl
    · split
      · exact spares_error rfl
      · split
        · exact spares_error rfl
        · exact spares_ok _
  · dsimp only
    split
    · exact spares_error (e := BlobError.kind kind e.kind) rfl
    · split
      · exact spares_error (e := BlobError.scheme scheme e.scheme) rfl
      · split
        · exact spares_ok _
        · exact spares_error rfl

theorem local_unwrapValues (context : Context) (blob : Bytes) (expected : ExpectedClasses) :
    Local BlobError.isReleased K (unwrapValues Scheme.bitwise context blob expected)
      fun x L => ∀ cell ∈ x.cells, cell ∈ L := by
  unfold unwrapValues
  refine .bind (local_liftM (Q := fun _ _ => True) (spares_unwrap _ _ _) fun _ _ => trivial)
    fun p L _ _ => ?_
  refine local_foldlM (by simp [SchemeValuation.cells, OrderedMap.values])
    fun found L' _ hfound t _ => ?_
  refine (local_readTagged context expected t.1 t.2).bind fun y M hM hy => local_pure ?_
  refine cells_of_suits fun name z hz => ?_
  rcases OrderedMap.mem_entries_insert hz with heq | hz
  · cases heq
    exact hy
  · exact (suits_of_cells hfound hz).mono hM

theorem local_openValue (secret : Secret Scheme.bitwise.kind) {y : Value Scheme.bitwise}
    (hy : cellDiscipline.Suits K y) :
    Local ExecError.isReleased K (openValue Scheme.bitwise secret y) fun _ _ => True := by
  unfold openValue
  cases y with
  | cipher c =>
    exact (Gates.local_decrypt secret.key (hy c rfl)).alone.bind fun _ _ _ _ => local_pure trivial
  | plain | raw => exact local_pure trivial

theorem local_decrypt (secret : Secret Scheme.bitwise.kind) (sig : Signature)
    (hx : ∀ cell ∈ x.cells, cell ∈ K) :
    Local ExecError.isReleased K (decrypt Scheme.bitwise secret x sig) fun _ _ => True := by
  refine local_foldlM trivial fun found L hL _ e he => ?_
  obtain ⟨name, y⟩ := e
  have hopen (M : Set (Nat × Nat)) (hM : L ⊆ M) :
      Local ExecError.isReleased M (do
        let slots ← openValue Scheme.bitwise secret y
        return found.insert name (Slot.toPlain (slots.take sig.width))) fun _ _ => True :=
    (local_openValue secret ((suits_of_cells hx he).mono (hL.trans hM))).bind
      fun _ _ _ _ => local_pure trivial
  dsimp only
  split
  · split
    · exact .bind (Q := fun _ _ => False) (local_throw rfl) fun _ _ _ h => h.elim
    · exact hopen L subset_rfl
  · exact hopen L subset_rfl

theorem local_wrapValues (hx : ∀ cell ∈ x.cells, cell ∈ K) :
    Local BlobError.isReleased K (wrapValues Scheme.bitwise x) fun _ _ => True := by
  unfold wrapValues
  refine (local_mapM fun L hL e he => ?_).bind fun _ _ _ _ => local_pure trivial
  refine Local.bind (Q := fun _ _ => True) ?_ fun _ _ _ _ => local_pure trivial
  unfold writeValue
  obtain ⟨name, y⟩ := e
  cases y with
  | cipher c => exact (Gates.local_writeCiphertext (hL (suits_of_cells hx he c rfl))).inBlob
  | plain | raw => exact local_pure trivial

end Valuations

end CipherGraph

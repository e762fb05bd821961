import CipherGraph.Proofs.Execution

/-! # What enters and leaves an execution

Every encrypted value comes from a value of the same name, the outputs are values that the machine
holds, and a decryption opens them one by one.
-/

namespace CipherGraph

variable {S : Scheme} {v v' : Vault}

section Encrypt

variable {context : Context} {keyId : KeyId} {valuation : Valuation} {sig : Signature}
  {inputs : SchemeValuation S} {noise : String → Noise}

/-- What the slots of an input become, by the class that the signature gives it. -/
inductive Enters (context : Context) (keyId : KeyId) (width : Nat) (slots : List S.Slot)
    (info : InputEncoding) (noise : Noise) (v v' : Vault) : Value S → Prop where
  | raw {full : List S.Slot} (htype : info.type = .raw) (hfill : fill slots width = .ok full) :
      Enters context keyId width slots info noise v v' (.raw full)
  | plain {full : List S.Slot} {p : S.Plaintext} (htype : info.type = .plain)
      (hfill : fill slots context.slotCount = .ok full)
      (hencode : S.encode context full info.scaleBits info.level = .ok p) :
      Enters context keyId width slots info noise v v' (.plain p)
  | cipher {full : List S.Slot} {p : S.Plaintext} {c : S.Ciphertext}
      (htype : info.type = .cipher) (hfill : fill slots context.slotCount = .ok full)
      (hencode : S.encode context full info.scaleBits info.level = .ok p)
      (hencrypt : Runs (S.encrypt context keyId p noise) v (.ok c) v') :
      Enters context keyId width slots info noise v v' (.cipher c)

theorem Enters.type_eq {width : Nat} {slots : List S.Slot} {info : InputEncoding} {noise : Noise}
    {x : Value S} (h : Enters context keyId width slots info noise v v' x) :
    x.type = info.type := by
  cases h with
  | raw htype | plain htype | cipher htype => exact htype.symm

theorem encryptInput_ok {name : String} {p : PlainValue} {noise : Noise} {x : Value S}
    (h : Runs (encryptInput S context keyId sig name p noise) v (.ok x) v') :
    ∃ info slots, sig.inputs.find? name = some info ∧
      inputSlots S name p sig.width context.slotCount = .ok slots ∧
        Enters context keyId sig.width slots info noise v v' x := by
  unfold encryptInput at h
  split at h
  · cases (runs_throw.mp h).1
  · next info hinfo =>
    obtain ⟨slots, _, h₁, hrest⟩ := runs_bind_ok.mp h
    obtain ⟨hslots, rfl⟩ := runs_liftM.mp h₁
    refine ⟨info, slots, hinfo, hslots.symm, ?_⟩
    split at hrest
    · next hraw =>
      obtain ⟨full, _, hfull, hrest⟩ := runs_bind_ok.mp hrest
      cases (runs_pure.mp hrest).1
      exact .raw hraw (runs_liftM.mp hfull).1.symm
    · next hcoded =>
      obtain ⟨full, _, h₂, hcoding⟩ := runs_bind_ok.mp hrest
      obtain ⟨hfull, rfl⟩ := runs_liftM.mp h₂
      split at hcoding
      · cases (runs_throw.mp hcoding).1
      · next p hencode =>
        split at hcoding
        · next hplain =>
          cases (runs_pure.mp hcoding).1
          exact .plain hplain hfull.symm hencode
        · next hcipher =>
          obtain ⟨c, _, hrun, hlast⟩ := runs_bind_ok.mp hcoding
          obtain ⟨hr, rfl⟩ := runs_pure.mp hlast
          cases hr
          have htype : info.type = .cipher := by
            cases htype : info.type with
            | raw => exact absurd htype hcoded
            | plain => exact absurd htype hcipher
            | cipher => rfl
          exact .cipher htype hfull.symm hencode (runs_alone_ok.mp hrun)

theorem foldlM_encryptInput {P : SchemeValuation S → Vault → Prop} {l : List (String × PlainValue)}
    {found : SchemeValuation S}
    (h : Runs (l.foldlM (fun (found : SchemeValuation S) e => do
      return found.insert e.1 (← encryptInput S context keyId sig e.1 e.2 (noise e.1))) found)
        v (.ok inputs) v') (hfound : P found v)
    (hstep : ∀ found name p x v v', (name, p) ∈ l → P found v →
      Runs (encryptInput S context keyId sig name p (noise name)) v (.ok x) v' →
        P (found.insert name x) v') :
    P inputs v' := by
  induction l generalizing found v with
  | nil =>
    obtain ⟨hr, rfl⟩ := runs_pure.mp h
    cases hr
    exact hfound
  | cons e l ih =>
    obtain ⟨k, p⟩ := e
    rw [List.foldlM_cons] at h
    obtain ⟨found', v₁, h₁, hrest⟩ := runs_bind_ok.mp h
    obtain ⟨y, v₂, hy, h₁⟩ := runs_bind_ok.mp h₁
    obtain ⟨hr, rfl⟩ := runs_pure.mp h₁
    cases hr
    exact ih hrest (hstep found k p y v _ List.mem_cons_self hfound hy)
      fun found name p x v v' hp => hstep found name p x v v' (List.mem_cons_of_mem _ hp)

theorem encrypt_induct {P : SchemeValuation S → Vault → Prop}
    (h : Runs (encrypt S context keyId valuation sig noise) v (.ok inputs) v') (hempty : P ∅ v)
    (hstep : ∀ found name p x v v', (name, p) ∈ valuation.entries → P found v →
      Runs (encryptInput S context keyId sig name p (noise name)) v (.ok x) v' →
        P (found.insert name x) v') :
    P inputs v' := by
  unfold encrypt at h
  dsimp only at h
  split at h
  · obtain ⟨_, _, h, -⟩ := runs_bind_ok.mp h
    cases (runs_throw.mp h).1
  · exact foldlM_encryptInput h hempty hstep

theorem encrypt_ok (h : Runs (encrypt S context keyId valuation sig noise) v (.ok inputs) v')
    {name : String} {x : Value S} (hx : (name, x) ∈ inputs.entries) :
    ∃ p v₁ v₂, (name, p) ∈ valuation.entries ∧
      Runs (encryptInput S context keyId sig name p (noise name)) v₁ (.ok x) v₂ := by
  refine encrypt_induct (P := fun found _ => ∀ name x, (name, x) ∈ found.entries →
    ∃ p v₁ v₂, (name, p) ∈ valuation.entries ∧
      Runs (encryptInput S context keyId sig name p (noise name)) v₁ (.ok x) v₂)
    h (by simp) ?_ name x hx
  intro found k p y v₁ v₂ hp hfound hy name x hx
  rcases OrderedMap.mem_entries_insert hx with heq | hx
  · cases heq
    exact ⟨p, v₁, v₂, hp, hy⟩
  · exact hfound name x hx

end Encrypt

namespace Machine

variable {m : Machine S}

theorem collect_ok {l : List (String × NodeId)} {found out : SchemeValuation S}
    (h : m.collect v l found = (out, .ok ())) :
    (∀ name x, (name, x) ∈ out.entries → (name, x) ∈ found.entries ∨
      ∃ node, (name, node) ∈ l ∧ m.values.find? node = some x) ∧
    ∀ name, name ∈ found.keys ∨ name ∈ l.map (·.1) → name ∈ out.keys := by
  induction l generalizing found with
  | nil =>
    cases h
    exact ⟨fun name x hx => .inl hx, by simp⟩
  | cons e l ih =>
    obtain ⟨k, node⟩ := e
    -- A value that is collected is inserted under its name.
    have hstep {x : Value S} (hnode : m.values.find? node = some x)
        (h : m.collect v l (found.insert k x) = (out, .ok ())) :
        (∀ name x, (name, x) ∈ out.entries → (name, x) ∈ found.entries ∨
          ∃ n, (name, n) ∈ (k, node) :: l ∧ m.values.find? n = some x) ∧
        ∀ name, name ∈ found.keys ∨ name ∈ ((k, node) :: l).map (·.1) → name ∈ out.keys := by
      obtain ⟨hvalues, hnames⟩ := ih h
      constructor
      · intro name y hy
        rcases hvalues name y hy with hy | ⟨n, hn, hfound⟩
        · rcases OrderedMap.mem_entries_insert hy with heq | hy
          · cases heq
            exact .inr ⟨node, List.mem_cons_self, hnode⟩
          · exact .inl hy
        · exact .inr ⟨n, List.mem_cons_of_mem _ hn, hfound⟩
      · intro name hname
        refine hnames name ?_
        rw [OrderedMap.mem_keys_insert]
        rcases hname with hname | hname
        · exact .inl (.inr hname)
        · rcases List.mem_cons.mp hname with rfl | hname
          · exact .inl (.inl rfl)
          · exact .inr hname
    unfold collect at h
    split at h
    · cases h
    · next c hnode =>
      split at h
      · exact hstep hnode h
      · cases h
    · next x _ hnode => exact hstep hnode h

theorem outputs_ok {out : SchemeValuation S} (h : m.outputs v = (out, .ok ())) :
    (∀ name x, (name, x) ∈ out.entries →
      ∃ node, (name, node) ∈ m.graph.outputs.entries ∧ m.values.find? node = some x) ∧
    ∀ name ∈ m.graph.outputs.keys, name ∈ out.keys := by
  obtain ⟨hvalues, hnames⟩ := collect_ok h
  exact ⟨fun name x hx => (hvalues name x hx).resolve_left (by simp),
    fun name hname => hnames name (.inr hname)⟩

end Machine

section Decrypt

variable {secret : Secret S.kind} {outputs : SchemeValuation S} {sig : Signature}
  {plain : String → PlainValue}

/-- Where every value opens, and has the class expected, a decryption gives what they open to. -/
theorem decrypt_opened
    (hclass : ∀ name x, (name, x) ∈ outputs.entries → ∀ type, sig.outputs.find? name = some type →
      type = x.type)
    (hopen : ∀ name x, (name, x) ∈ outputs.entries → ∃ slots,
      Runs (openValue S secret x) v (.ok slots) v) :
    ∃ found, Runs (decrypt S secret outputs sig) v (.ok found) v ∧
      ∀ name ∈ outputs.keys, ∃ x slots, (name, x) ∈ outputs.entries ∧
        Runs (openValue S secret x) v (.ok slots) v ∧
          found.find? name = some (Slot.toPlain (slots.take sig.width)) := by
  have hall (x : Value S) : ∃ slots, ∀ name, (name, x) ∈ outputs.entries →
      Runs (openValue S secret x) v (.ok slots) v := by
    by_cases hx : ∃ name, (name, x) ∈ outputs.entries
    · obtain ⟨name, hx⟩ := hx
      obtain ⟨slots, hslots⟩ := hopen name x hx
      exact ⟨slots, fun _ _ => hslots⟩
    · exact ⟨[], fun name hname => absurd ⟨name, hname⟩ hx⟩
  choose slots hslots using hall
  unfold decrypt
  refine ⟨outputs.entries.foldl (fun found e =>
      found.insert e.1 (Slot.toPlain ((slots e.2).take sig.width))) ∅,
    runs_foldlM (fun found e he => ?_) ∅, fun name hname => ?_⟩
  · obtain ⟨name, x⟩ := e
    have hinsert : Runs (do
        let slots ← openValue S secret x
        return found.insert name (Slot.toPlain (slots.take sig.width)))
        v (.ok (found.insert name (Slot.toPlain ((slots x).take sig.width)))) v :=
      runs_bind_ok.mpr ⟨slots x, v, hslots x name he, runs_pure.mpr ⟨rfl, rfl⟩⟩
    dsimp only
    split
    · next type htype =>
      rw [if_neg (not_not.mpr (hclass name x he type htype))]
      exact hinsert
    · exact hinsert
  · obtain ⟨x, hx, hfind⟩ := OrderedMap.find?_foldl_insert (m := ∅)
      (f := fun e : String × Value S => Slot.toPlain ((slots e.2).take sig.width)) hname
    exact ⟨x, slots x, hx, hslots x name hx, hfind⟩

theorem decrypt_of_opens
    (hclass : ∀ name x, (name, x) ∈ outputs.entries → ∀ type, sig.outputs.find? name = some type →
      type = x.type)
    (hopen : ∀ name x, (name, x) ∈ outputs.entries → ∃ slots,
      Runs (openValue S secret x) v (.ok slots) v ∧
        Slot.toPlain (slots.take sig.width) = plain name) :
    ∃ found, Runs (decrypt S secret outputs sig) v (.ok found) v ∧
      ∀ name ∈ outputs.keys, found.find? name = some (plain name) := by
  obtain ⟨found, hrun, hfound⟩ := decrypt_opened hclass fun name x hx =>
    (hopen name x hx).imp fun _ h => h.1
  refine ⟨found, hrun, fun name hname => ?_⟩
  obtain ⟨x, slots, hx, hslots, hfind⟩ := hfound name hname
  obtain ⟨slots', hslots', hplain⟩ := hopen name x hx
  cases (hslots.unique hslots').1
  rw [hfind, hplain]

end Decrypt

end CipherGraph

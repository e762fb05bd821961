import CipherGraph.Proofs.Exactness
import CipherGraph.Proofs.GateExactness
import CipherGraph.Proofs.ParameterFit
import CipherGraph.Proofs.ValueBlobs

/-! # Inputs that come back

The two families that compute with integers take every input whose vector fits the signature's
width a whole number of times. Decrypted without having been computed with, it is the vector over
and over, reduced unless it stayed in the clear.
-/

namespace CipherGraph

/-- The integers of a value, unless it is real. -/
def PlainValue.integers? : PlainValue → Option (List Int)
  | .integer v => some [v.toInt]
  | .integers l => some (l.map Int64.toInt)
  | .byte b => some [b.toNat]
  | .real _ | .reals _ => none

/-- What becomes of an integer that is encoded: the one of least magnitude with its residue, or its
low bits. -/
def Parameters.reduce (p : Parameters) (x : Int) : Int :=
  match p.scheme with
  | .bitwise => x % 2 ^ p.bitWidth
  | .bfv | .ckks => (x : ZMod p.plainModulus.toNat).valMinAbs

namespace Scheme.Contents

variable {S : Scheme}

/-- Slots are integers, which encoding reduces, and decryption gives back what was encoded. -/
structure Counts (H : S.Contents) (context : Context) (toInt : S.Slot → Int)
    (reduce : S.Slot → S.Slot) : Prop where
  slotCount : ∃ k, context.slotCount = 2 ^ k
  length : ∀ {p : PlainValue} {slots : List S.Slot},
    (Slot.ofPlain p : Except SlotFault (List S.Slot)) = .ok slots →
      slots.length = p.length?.getD 1
  accepts : ∀ {p : PlainValue} {ints : List Int}, p.integers? = some ints →
    ((∃ slots : List S.Slot, (Slot.ofPlain p : Except SlotFault (List S.Slot)) = .ok slots) ↔
      (S.kind = .bitwise → ∀ x ∈ ints, 0 ≤ x ∧ x < 256))
  ofPlain : ∀ {p : PlainValue} {ints : List Int} {slots : List S.Slot}, p.integers? = some ints →
    (Slot.ofPlain p : Except SlotFault (List S.Slot)) = .ok slots → slots.map toInt = ints
  toPlain : ∀ {slots : List S.Slot}, slots.length ∣ context.slotCount →
    (Slot.toPlain slots).integers? = some (slots.map toInt)
  toInt_reduce : ∀ slot, toInt (reduce slot) = context.params.reduce (toInt slot)
  encode : ∀ {slots : List S.Slot} (scaleBits level : Nat), slots.length = context.slotCount →
    ∃ p, S.encode context slots scaleBits level = .ok p ∧ S.decode context p = slots.map reduce
  encrypt : ∀ {slots : List S.Slot} {scaleBits level : Nat} {p : S.Plaintext} {v : Vault}
    (keyId : KeyId) (noise : Noise), S.encode context slots scaleBits level = .ok p →
      context.Hosted v →
      ∃ c v' k, Runs (S.encrypt context keyId p noise) v (.ok c) v' ∧ v.Extends v' ∧
        context.Hosted v' ∧ H.content? v' c = some k ∧
        ∀ secret : Secret S.kind, secret.keyId = keyId → ∀ w, H.content? w c = some k →
          Runs (S.decrypt context secret.key c) w (.ok p) w
  kept : ∀ {v w : Vault} {held : List (Nat × Nat)} {c : S.Ciphertext} {k : H.Content}, v.Issued →
    v.Keeps held w → (∀ cell ∈ S.cells c, cell ∈ held) → H.content? v c = some k →
      H.content? w c = some k

end Scheme.Contents

section Inputs

variable {S : Scheme} {H : S.Contents} {context : Context} {toInt : S.Slot → Int}
  {reduce : S.Slot → S.Slot} {keyId : KeyId} {sig : Signature} {name : String} {p : PlainValue}
  {slots : List S.Slot} {v v' w : Vault} {x : Value S} {noise : Noise}

/-- A vector of a length that divides the width, or a scalar. -/
structure PlainValue.Tiles (width : Nat) (p : PlainValue) (slots : List S.Slot) : Prop where
  ofPlain : (Slot.ofPlain p : Except SlotFault (List S.Slot)) = .ok slots
  divides : ∀ n, p.length? = some n → 0 < n ∧ n ∣ width

theorem Scheme.Contents.Counts.slotCount_pos (hc : H.Counts context toInt reduce) :
    0 < context.slotCount := by
  obtain ⟨k, hslots⟩ := hc.slotCount
  exact hslots ▸ Nat.pow_pos Nat.two_pos

theorem Scheme.Contents.Counts.width_pos {width : Nat} (hc : H.Counts context toInt reduce)
    (h : width ∣ context.slotCount) : 0 < width := Nat.pos_of_dvd_of_pos h hc.slotCount_pos

theorem PlainValue.Tiles.length (h : p.Tiles sig.width slots) (hc : H.Counts context toInt reduce) :
    0 < slots.length ∧ slots.length ∣ sig.width := by
  rw [hc.length h.ofPlain]
  cases hn : p.length? with
  | none => exact ⟨Nat.one_pos, Nat.one_dvd _⟩
  | some n => exact h.divides n hn

theorem exists_fill {α : Type} {l : List α} {n : Nat} (hpos : 0 < l.length) (hdvd : l.length ∣ n) :
    ∃ full, fill l n = .ok full := by
  refine ⟨_, if_neg ?_⟩
  simp [Nat.mod_eq_zero_of_dvd hdvd, List.ne_nil_of_length_pos hpos]

theorem PlainValue.Tiles.inputSlots (h : p.Tiles sig.width slots) [Inhabited S.Slot] (name : String)
    (hc : H.Counts context toInt reduce) (hwidth : sig.width ∣ context.slotCount) :
    ∃ l, inputSlots S name p sig.width context.slotCount = .ok l ∧ 0 < l.length ∧
      l.length ∣ sig.width ∧ cycle sig.width l = cycle sig.width slots := by
  have hpos := hc.width_pos hwidth
  have : NeZero sig.width := ⟨Nat.ne_of_gt hpos⟩
  have hlength := h.length hc
  unfold CipherGraph.inputSlots
  rw [h.ofPlain]
  dsimp only
  cases hn : p.length? with
  | none =>
    obtain ⟨slot, rfl⟩ := List.length_eq_one_iff.mp (by rw [hc.length h.ofPlain, hn]; rfl)
    refine ⟨_, rfl, ?_, ?_, cycle_replicate slot⟩
    · rwa [List.length_replicate]
    · rw [List.length_replicate]
  | some n =>
    obtain ⟨hn₀, hdvd⟩ := h.divides n hn
    have hle : ¬n > sig.width := Nat.not_lt.mpr (Nat.le_of_dvd hpos hdvd)
    have hmod : context.slotCount % max n 1 = 0 := by
      rw [Nat.max_eq_left hn₀]
      exact Nat.mod_eq_zero_of_dvd (hdvd.trans hwidth)
    refine ⟨slots, ?_, hlength.1, hlength.2, rfl⟩
    simp [hle, hmod]
    rfl

theorem filled_of_fill {α : Type} {l full : List α} {n : Nat} (h : fill l n = .ok full) :
    0 < l.length ∧ l.length ∣ n := by
  refine ⟨?_, length_dvd_of_fill h⟩
  cases l with
  | nil => cases h
  | cons => exact Nat.succ_pos _

theorem Enters.filled {width : Nat} {info : InputEncoding} (hwidth : width ∣ context.slotCount)
    (h : Enters context keyId width slots info noise v v' x) :
    0 < slots.length ∧ slots.length ∣ context.slotCount := by
  cases h with
  | raw _ hfill => exact (filled_of_fill hfill).imp_right (·.trans hwidth)
  | plain _ hfill | cipher _ hfill => exact filled_of_fill hfill

theorem vector_of_inputSlots {width slotCount n : Nat} (hn : p.length? = some n)
    (h : inputSlots S name p width slotCount = .ok slots) :
    (Slot.ofPlain p : Except SlotFault (List S.Slot)) = .ok slots ∧ n ≤ width := by
  unfold inputSlots at h
  rw [hn] at h
  split at h
  · cases h
  · next l hl =>
    dsimp only at h
    split at h
    · cases h
    · next htiles =>
      cases h
      refine ⟨hl, Nat.not_lt.mp fun hlt => htiles ?_⟩
      simp [hlt]

theorem tiles_of_encryptInput (hc : H.Counts context toInt reduce)
    (hwidth : sig.width ∣ context.slotCount)
    (h : Runs (encryptInput S context keyId sig name p noise) v (.ok x) v') :
    ∃ info, sig.inputs.find? name = some info ∧ ∃ slots : List S.Slot, p.Tiles sig.width slots := by
  obtain ⟨info, l, hinfo, hl, henters⟩ := encryptInput_ok h
  obtain ⟨hpos, hdvd⟩ := henters.filled hwidth
  refine ⟨info, hinfo, ?_⟩
  cases hn : p.length? with
  | none =>
    unfold inputSlots at hl
    split at hl
    · cases hl
    · next slots hslots => exact ⟨slots, hslots, by simp [hn]⟩
  | some n =>
    obtain ⟨k, hslots⟩ := hc.slotCount
    obtain ⟨hplain, hle⟩ := vector_of_inputSlots hn hl
    have hlength : l.length = n := by rw [hc.length hplain, hn, Option.getD_some]
    rw [hlength] at hpos hdvd
    refine ⟨l, hplain, fun n' hn' => ?_⟩
    cases hn.symm.trans hn'
    exact ⟨hpos, dvd_of_le_of_dvd_two_pow (hslots ▸ hwidth) (hslots ▸ hdvd) hle⟩

/-- The slots that a value opens to under a key, wherever what it holds is kept. -/
inductive Value.Holds (H : S.Contents) (context : Context) (keyId : KeyId) (v : Vault)
    (full : List S.Slot) : Value S → Prop where
  | raw : Holds H context keyId v full (.raw full)
  | plain {p : S.Plaintext} (hp : S.decode context p = full) :
      Holds H context keyId v full (.plain p)
  | cipher {c : S.Ciphertext} {p : S.Plaintext} {k : H.Content} (hp : S.decode context p = full)
      (hk : H.content? v c = some k)
      (hopen : ∀ secret : Secret S.kind, secret.keyId = keyId → ∀ w, H.content? w c = some k →
        Runs (S.decrypt context secret.key c) w (.ok p) w) :
      Holds H context keyId v full (.cipher c)

theorem Value.Holds.extends {full : List S.Slot} (h : x.Holds H context keyId v full)
    (hH : H.Lawful) (hv : v.Issued) (hgrows : v.Extends w) : x.Holds H context keyId w full := by
  cases h with
  | raw => exact .raw
  | plain hp => exact .plain hp
  | cipher hp hk hopen => exact .cipher hp (hH.lasting hv hgrows hk) hopen

theorem Value.Holds.keeps {full : List S.Slot} {held : List (Nat × Nat)}
    (h : x.Holds H context keyId v full) (hc : H.Counts context toInt reduce) (hv : v.Issued)
    (hkeeps : v.Keeps held w) (hheld : ∀ cell ∈ x.cells, cell ∈ held) :
    x.Holds H context keyId w full := by
  cases h with
  | raw => exact .raw
  | plain hp => exact .plain hp
  | cipher hp hk hopen => exact .cipher hp (hc.kept hv hkeeps hheld hk) hopen

theorem Value.Holds.opens {full : List S.Slot} {secret : Secret S.kind}
    (h : x.Holds H context keyId v full) (hkey : secret.keyId = keyId)
    (hcontext : secret.context = context) : Runs (openValue S secret x) v (.ok full) v := by
  cases h with
  | raw => exact runs_pure.mpr ⟨rfl, rfl⟩
  | plain hp => exact runs_pure.mpr ⟨by rw [hcontext, hp], rfl⟩
  | cipher hp hk hopen =>
    subst hcontext
    refine (runs_bind_of_ok (runs_alone_ok.mpr (hopen secret hkey v hk))).mpr ?_
    exact runs_pure.mpr ⟨by rw [hp], rfl⟩

/-- A value that was made of an input, and opens to its vector over and over. -/
inductive Value.Renders [Inhabited S.Slot] (H : S.Contents) (context : Context) (keyId : KeyId)
    (reduce : S.Slot → S.Slot) (sig : Signature) (v : Vault) (name : String) (p : PlainValue)
    (x : Value S) : Prop where
  | intro {info : InputEncoding} {slots full : List S.Slot}
      (hinfo : sig.inputs.find? name = some info) (htiles : p.Tiles sig.width slots)
      (htype : x.type = info.type) (hholds : x.Holds H context keyId v full)
      (hfull : full.take sig.width = spread sig.width fun i =>
        if info.type = .raw then cycle sig.width slots i
        else reduce (cycle sig.width slots i)) :
      Renders H context keyId reduce sig v name p x

theorem runs_encryptInput [Inhabited S.Slot] (keyId : KeyId) (noise : Noise)
    (hc : H.Counts context toInt reduce)
    (hwidth : sig.width ∣ context.slotCount) (hv : context.Hosted v) {info : InputEncoding}
    (hinfo : sig.inputs.find? name = some info) (htiles : p.Tiles sig.width slots) :
    ∃ x v', Runs (encryptInput S context keyId sig name p noise) v (.ok x) v' ∧ v.Extends v' ∧
      context.Hosted v' ∧ x.Renders H context keyId reduce sig v' name p := by
  obtain ⟨l, hl, hpos, hdvd, hcycle⟩ := htiles.inputSlots name hc hwidth
  have hw := hc.width_pos hwidth
  have : NeZero sig.width := ⟨Nat.ne_of_gt hw⟩
  have hle : sig.width ≤ context.slotCount := Nat.le_of_dvd hc.slotCount_pos hwidth
  -- In the clear a value has as many slots as the signature is wide.
  by_cases hraw : info.type = .raw
  · obtain ⟨full, hfull⟩ := exists_fill hpos hdvd
    refine ⟨.raw full, v, ?_, .refl v, hv, .intro hinfo htiles hraw.symm .raw ?_⟩
    · unfold encryptInput
      rw [hinfo]
      dsimp only
      rw [runs_bind_of_ok (runs_liftM.mpr ⟨hl.symm, rfl⟩), if_pos hraw]
      exact (runs_bind_of_ok (runs_liftM.mpr ⟨hfull.symm, rfl⟩)).mpr (runs_pure.mpr ⟨rfl, rfl⟩)
    · rw [fill_ok hfull hdvd, take_spread (Nat.le_refl _), hcycle]
      simp [hraw]
  · obtain ⟨full, hfull⟩ := exists_fill hpos (hdvd.trans hwidth)
    have hspread : full = spread context.slotCount (cycle sig.width slots) :=
      hcycle ▸ fill_ok hfull hdvd
    obtain ⟨q, hencode, hdecode⟩ := hc.encode info.scaleBits info.level
      (hspread ▸ length_spread : full.length = context.slotCount)
    have htake : (full.map reduce).take sig.width = spread sig.width fun i =>
        if info.type = .raw then cycle sig.width slots i
        else reduce (cycle sig.width slots i) := by
      rw [hspread, map_spread, take_spread hle]
      simp [hraw]
    have hrest {r : Except ExecError (Value S)} {w : Vault}
        (h : Runs (if info.type = .plain then return .plain q
          else return .cipher (← (S.encrypt context keyId q noise).alone) : Exec (Value S)) v r w) :
        Runs (encryptInput S context keyId sig name p noise) v r w := by
      unfold encryptInput
      rw [hinfo]
      dsimp only
      rw [runs_bind_of_ok (runs_liftM.mpr ⟨hl.symm, rfl⟩), if_neg hraw,
        runs_bind_of_ok (runs_liftM.mpr ⟨hfull.symm, rfl⟩), hencode]
      exact h
    by_cases hplain : info.type = .plain
    · refine ⟨.plain q, v, hrest ?_, .refl v, hv,
        .intro hinfo htiles hplain.symm (.plain hdecode) htake⟩
      rw [if_pos hplain]
      exact runs_pure.mpr ⟨rfl, rfl⟩
    · obtain ⟨c, v', k, hrun, hgrows, hhosted, hk, hopen⟩ := hc.encrypt keyId noise hencode hv
      have htype : info.type = .cipher := by
        cases htype : info.type with
        | raw => exact absurd htype hraw
        | plain => exact absurd htype hplain
        | cipher => rfl
      refine ⟨.cipher c, v', hrest ?_, hgrows, hhosted,
        .intro hinfo htiles htype.symm (.cipher hdecode hk hopen) htake⟩
      rw [if_neg hplain]
      exact (runs_bind_of_ok (runs_alone_ok.mpr hrun)).mpr (runs_pure.mpr ⟨rfl, rfl⟩)

variable {valuation : Valuation} {inputs found : SchemeValuation S}
  {l : List (String × PlainValue)} {noise : String → Noise}

/-- A signature that divides the slots does not keep its inputs from being encrypted. -/
theorem runs_encrypt (hc : H.Counts context toInt reduce) (hwidth : sig.width ∣ context.slotCount)
    {r : Except ExecError (SchemeValuation S)} :
    Runs (encrypt S context keyId valuation sig noise) v r v' ↔
      Runs (valuation.entries.foldlM (fun (found : SchemeValuation S) e => do
        return found.insert e.1 (← encryptInput S context keyId sig e.1 e.2 (noise e.1))) ∅)
          v r v' := by
  have hpos := Nat.ne_of_gt (hc.width_pos hwidth)
  have hle : ¬sig.width > context.slotCount :=
    Nat.not_lt.mpr (Nat.le_of_dvd hc.slotCount_pos hwidth)
  have hmod : context.slotCount % sig.width = 0 := Nat.mod_eq_zero_of_dvd hwidth
  unfold encrypt
  simp [hpos, hle, hmod]

theorem exists_encrypted [Inhabited S.Slot] (keyId : KeyId) (noise : String → Noise)
    (hc : H.Counts context toInt reduce)
    (hwidth : sig.width ∣ context.slotCount) (hv : context.Hosted v)
    (hall : ∀ e ∈ l, ∃ info, sig.inputs.find? e.1 = some info ∧
      ∃ slots : List S.Slot, e.2.Tiles sig.width slots) (found : SchemeValuation S) :
    ∃ inputs v', Runs (l.foldlM (fun (found : SchemeValuation S) e => do
      return found.insert e.1 (← encryptInput S context keyId sig e.1 e.2 (noise e.1))) found)
        v (.ok inputs) v' := by
  induction l generalizing v found with
  | nil => exact ⟨found, v, runs_pure.mpr ⟨rfl, rfl⟩⟩
  | cons e l ih =>
    obtain ⟨⟨info, hinfo, slots, htiles⟩, hl⟩ := List.forall_mem_cons.mp hall
    obtain ⟨x, v₁, hx, -, hhosted, -⟩ :=
      runs_encryptInput keyId _ hc hwidth hv hinfo htiles
    obtain ⟨inputs, v', hrest⟩ := ih hhosted hl (found.insert e.1 x)
    have hstep : Runs (do
        return found.insert e.1 (← encryptInput S context keyId sig e.1 e.2 (noise e.1)))
        v (.ok (found.insert e.1 x)) v₁ :=
      (runs_bind_of_ok hx).mpr (runs_pure.mpr ⟨rfl, rfl⟩)
    refine ⟨inputs, v', ?_⟩
    rw [List.foldlM_cons]
    exact (runs_bind_of_ok hstep).mpr hrest

theorem encryptInput_of_foldlM
    (h : Runs (l.foldlM (fun (found : SchemeValuation S) e => do
      return found.insert e.1 (← encryptInput S context keyId sig e.1 e.2 (noise e.1))) found)
        v (.ok inputs) v') :
    (∀ name ∈ found.keys, name ∈ inputs.keys) ∧ ∀ e ∈ l, e.1 ∈ inputs.keys ∧
      ∃ v₁ x v₂, Runs (encryptInput S context keyId sig e.1 e.2 (noise e.1)) v₁ (.ok x) v₂ := by
  induction l generalizing found v with
  | nil =>
    cases (runs_pure.mp h).1
    exact ⟨fun _ hname => hname, by simp⟩
  | cons e l ih =>
    rw [List.foldlM_cons] at h
    obtain ⟨found', v₁, hfirst, hrest⟩ := runs_bind_ok.mp h
    obtain ⟨x, v₂, hx, hfirst⟩ := runs_bind_ok.mp hfirst
    cases (runs_pure.mp hfirst).1
    obtain ⟨hkeep, hall⟩ := ih hrest
    exact ⟨fun name hname => hkeep name (OrderedMap.mem_keys_insert.mpr (.inr hname)),
      List.forall_mem_cons.mpr
        ⟨⟨hkeep e.1 (OrderedMap.mem_keys_insert.mpr (.inl rfl)), v, x, v₂, hx⟩, hall⟩⟩

theorem renders_of_encrypt [Inhabited S.Slot] (hH : H.Lawful) (hc : H.Counts context toInt reduce)
    (hwidth : sig.width ∣ context.slotCount) (hv : context.Hosted v)
    (h : Runs (encrypt S context keyId valuation sig noise) v (.ok inputs) v') :
    context.Hosted v' ∧ ∀ name x, (name, x) ∈ inputs.entries → ∃ p,
      (name, p) ∈ valuation.entries ∧ x.Renders H context keyId reduce sig v' name p := by
  refine encrypt_induct (P := fun found v => context.Hosted v ∧ ∀ name x,
    (name, x) ∈ found.entries → ∃ p, (name, p) ∈ valuation.entries ∧
      x.Renders H context keyId reduce sig v name p) h ⟨hv, by simp⟩ ?_
  rintro found k p y v₁ v₂ hp ⟨hhosted, hfound⟩ hy
  obtain ⟨info, hinfo, slots, htiles⟩ := tiles_of_encryptInput hc hwidth hy
  obtain ⟨y', v₂', hy', hgrows, hhosted', hrenders⟩ :=
    runs_encryptInput keyId _ hc hwidth hhosted hinfo htiles
  obtain ⟨heq, rfl⟩ := hy.unique hy'
  cases heq
  refine ⟨hhosted', fun name x hx => ?_⟩
  rcases OrderedMap.mem_entries_insert hx with heq | hx
  · cases heq
    exact ⟨p, hp, hrenders⟩
  · obtain ⟨q, hq, ⟨hinfo, htiles, htype, hholds, hfull⟩⟩ := hfound name x hx
    exact ⟨q, hq, hinfo, htiles, htype, hholds.extends hH hhosted.issued hgrows, hfull⟩

theorem map_toInt_spread [Inhabited S.Slot] {width : Nat} (hpos : 0 < slots.length)
    (f : S.Slot → S.Slot) (g : Int → Int) (hfg : ∀ slot, toInt (f slot) = g (toInt slot)) :
    (spread width fun i => f (cycle width slots i)).map toInt =
      (List.range width).map fun i => g ((slots.map toInt).getD (i % slots.length) 0) := by
  rw [map_spread, spread]
  refine List.map_congr_left fun i hi => ?_
  have hi : i < width := List.mem_range.mp hi
  have hlt : i % slots.length < slots.length := Nat.mod_lt _ hpos
  have hval : (i : ZMod width).val = i := ZMod.val_cast_of_lt hi
  rw [hfg, cycle, hval]
  simp [hlt]

theorem exists_encrypt_iff [Inhabited S.Slot] (keyId : KeyId) (noise : String → Noise)
    (hc : H.Counts context toInt reduce) (hwidth : sig.width ∣ context.slotCount)
    (hv : context.Hosted v) (hints : ∀ e ∈ valuation.entries, e.2.integers?.isSome = true) :
    (∃ inputs v', Runs (encrypt S context keyId valuation sig noise) v (.ok inputs) v') ↔
      ∀ name q ints, (name, q) ∈ valuation.entries → q.integers? = some ints →
        name ∈ sig.inputs.keys ∧ (∀ n, q.length? = some n → 0 < n ∧ n ∣ sig.width) ∧
          (S.kind = .bitwise → ∀ x ∈ ints, 0 ≤ x ∧ x < 256) := by
  constructor
  · rintro ⟨inputs, v', h⟩ name q ints hq hints
    obtain ⟨-, hall⟩ := encryptInput_of_foldlM ((runs_encrypt hc hwidth).mp h)
    obtain ⟨-, v₂, x, v₃, hx⟩ := hall _ hq
    obtain ⟨info, hinfo, slots, htiles⟩ := tiles_of_encryptInput hc hwidth hx
    exact ⟨List.mem_map_of_mem (OrderedMap.mem_of_lookup hinfo), htiles.divides,
      (hc.accepts hints).mp ⟨slots, htiles.ofPlain⟩⟩
  · intro hall
    have htiles : ∀ e ∈ valuation.entries, ∃ info, sig.inputs.find? e.1 = some info ∧
        ∃ slots : List S.Slot, e.2.Tiles sig.width slots := by
      intro e he
      obtain ⟨ints, hi⟩ := Option.isSome_iff_exists.mp (hints e he)
      obtain ⟨hname, hdivides, hbytes⟩ := hall e.1 e.2 ints he hi
      obtain ⟨slots, hslots⟩ := (hc.accepts hi).mpr hbytes
      obtain ⟨info, hinfo⟩ := Option.isSome_iff_exists.mp (OrderedMap.contains_iff.mpr hname)
      exact ⟨info, hinfo, slots, hslots, hdivides⟩
    obtain ⟨inputs, v', h⟩ := exists_encrypted keyId noise hc hwidth hv htiles ∅
    exact ⟨inputs, v', (runs_encrypt hc hwidth).mpr h⟩

/-- What is encrypted can be decrypted later on, as long as its cells are held. -/
theorem decrypt_of_encrypt [Inhabited S.Slot] (hH : H.Lawful)
    (hc : H.Counts context toInt reduce) (hwidth : sig.width ∣ context.slotCount)
    (hv : context.Hosted v) (hnames : valuation.keys.Nodup)
    (h : Runs (encrypt S context keyId valuation sig noise) v (.ok inputs) v')
    {held : List (Nat × Nat)} (hkeeps : v'.Keeps held w)
    (hheld : ∀ cell ∈ inputs.cells, cell ∈ held)
    {secret : Secret S.kind} (hcontext : secret.context = context) (hkey : secret.keyId = keyId)
    (hclass : ∀ name info type, name ∈ valuation.keys → sig.inputs.find? name = some info →
      sig.outputs.find? name = some type → type = info.type) :
    ∃ found, Runs (decrypt S secret inputs sig) w (.ok found) w ∧
      ∀ name q ints, (name, q) ∈ valuation.entries → q.integers? = some ints →
        ∃ info r, sig.inputs.find? name = some info ∧ found.find? name = some r ∧
          r.integers? = some ((List.range sig.width).map fun i =>
            if info.type = .raw then ints.getD (i % ints.length) 0
            else context.params.reduce (ints.getD (i % ints.length) 0)) := by
  obtain ⟨hhosted', hrenders⟩ := renders_of_encrypt hH hc hwidth hv h
  have hopens {name : String} {x : Value S} (hx : (name, x) ∈ inputs.entries) :
      ∃ q info slots full, (name, q) ∈ valuation.entries ∧ sig.inputs.find? name = some info ∧
        q.Tiles sig.width slots ∧ x.type = info.type ∧
        Runs (openValue S secret x) w (.ok full) w ∧
        full.take sig.width = spread sig.width fun i =>
          if info.type = .raw then cycle sig.width slots i
          else reduce (cycle sig.width slots i) := by
    obtain ⟨q, hq, ⟨hinfo, htiles, htype, hholds, hfull⟩⟩ := hrenders name x hx
    have hcells : ∀ cell ∈ x.cells, cell ∈ held := fun cell hcell =>
      hheld cell (List.mem_flatMap.mpr ⟨x, List.mem_map_of_mem hx, hcell⟩)
    exact ⟨q, _, _, _, hq, hinfo, htiles, htype,
      (hholds.keeps hc hhosted'.issued hkeeps hcells).opens hkey hcontext, hfull⟩
  obtain ⟨found, hrun, hfound⟩ := decrypt_opened
    (fun name x hx type htype => by
      obtain ⟨q, info, -, -, hq, hinfo, -, hx, -⟩ := hopens hx
      exact (hclass name info type (List.mem_map_of_mem hq) hinfo htype).trans hx.symm)
    fun name x hx => by
      obtain ⟨-, -, -, full, -, -, -, -, hfull, -⟩ := hopens hx
      exact ⟨full, hfull⟩
  refine ⟨found, hrun, fun name q ints hq hi => ?_⟩
  obtain ⟨-, hall⟩ := encryptInput_of_foldlM ((runs_encrypt hc hwidth).mp h)
  obtain ⟨x, full, hx, hfull, hfind⟩ := hfound name (hall _ hq).1
  obtain ⟨q', info, slots, full', hq', hinfo, htiles, -, hfull', htake⟩ := hopens hx
  cases (hfull.unique hfull').1
  obtain rfl : q' = q := Option.some.inj
    (((OrderedMap.find?_eq_some hnames).mpr hq').symm.trans
      ((OrderedMap.find?_eq_some hnames).mpr hq))
  have hslots : slots.map toInt = ints := hc.ofPlain hi htiles.ofPlain
  have : NeZero sig.width := ⟨Nat.ne_of_gt (hc.width_pos hwidth)⟩
  refine ⟨info, _, hinfo, hfind, ?_⟩
  rw [htake, hc.toPlain (by rw [length_spread]; exact hwidth), ← hslots, List.length_map]
  refine congrArg some ?_
  by_cases hraw : info.type = .raw
  · simp only [hraw, if_true]
    exact map_toInt_spread (htiles.length hc).1 id id fun _ => rfl
  · simp only [hraw, if_false]
    exact map_toInt_spread (htiles.length hc).1 reduce _ hc.toInt_reduce

end Inputs

namespace Exact

variable {context : Context} {t : Nat}

theorem counts (hc : context.Packs t) (hs : context.scheme = .bfv) :
    contents.Counts context (Int64.toInt : Int64 → Int)
      (fun slot : Int64 => centered t (residue t slot)) where
  slotCount := by
    obtain ⟨k, -, hslots, -⟩ := hc.rows
    exact ⟨k + 1, hslots⟩
  length := Slot.length_ofPlain
  accepts := by
    rintro p ints hp
    refine iff_of_true ?_ nofun
    cases p with
    | real | reals => cases hp
    | integer v | integers l | byte b => exact ⟨_, rfl⟩
  ofPlain := by
    rintro p ints slots hp h
    cases p with
    | real | reals => cases hp
    | integer v | integers l =>
      cases hp
      cases h
      rfl
    | byte b =>
      cases hp
      cases h
      have hlt := b.toNat_lt
      change [(Int64.ofNat b.toNat).toInt] = _
      rw [Int64.toInt_ofNat_of_lt (by omega)]
  toPlain _ := rfl
  toInt_reduce := by
    have : NeZero t := hc.neZero
    rintro (slot : Int64)
    have hscheme : context.params.scheme = .bfv := hs
    rw [Parameters.reduce, hscheme, residue_eq, toInt_centered hc.modulus_lt, hc.modulus]
  encode := by
    rintro (slots : List Int64) _ _ hlength
    have hcount : Packed.checkCount context slots.length = .ok () := if_pos hlength
    refine ⟨⟨0, 0, slots.map (residue (modulus context))⟩, ?_, ?_⟩
    · change encode context slots = _
      rw [encode, hcount]
      rfl
    · change (slots.map _).map _ = _
      rw [modulus_eq hc, List.map_map]
      rfl
  encrypt := by
    rintro (slots : List Int64) _ _ p v keyId _ hencode hv
    obtain ⟨_, -, hp⟩ := Except.bind_eq_ok.mp (hencode : encode context slots = .ok p)
    cases hp
    refine ⟨_, v, _, runs_pure.mpr ⟨rfl, rfl⟩, .refl v, hv, rfl, fun secret hkey w _ => ?_⟩
    refine runs_liftM.mpr ⟨?_, rfl⟩
    have hsame : sameKey secret.key.keyId keyId = .ok () := if_pos hkey
    unfold decrypt Packed.decrypt
    rw [hsame]
    rfl
  kept _ _ _ h := h

end Exact

namespace Gates

variable {context : Context} {b : Nat}

theorem mapM_byteOf {l : List Int64} :
    (∃ slots, l.mapM Slot.byteOf = .ok slots) ↔ ∀ v ∈ l, 0 ≤ v.toInt ∧ v.toInt < 256 := by
  rw [exists_mapM_ok_iff]
  refine forall₂_congr fun v _ => ?_
  unfold Slot.byteOf
  split <;> simp_all

theorem map_toNat_of_mapM {l : List Int64} {slots : List UInt8}
    (h : l.mapM Slot.byteOf = .ok slots) :
    slots.map (fun x : UInt8 => (x.toNat : Int)) = l.map Int64.toInt := by
  induction l generalizing slots with
  | nil =>
    cases h
    rfl
  | cons v l ih =>
    rw [List.mapM_cons] at h
    obtain ⟨x, hx, h⟩ := Except.bind_eq_ok.mp h
    obtain ⟨rest, hrest, h⟩ := Except.bind_eq_ok.mp h
    cases h
    rw [List.map_cons, List.map_cons, ih hrest]
    congr 1
    unfold Slot.byteOf at hx
    split at hx
    · next htiles =>
      cases hx
      rw [UInt8.toNat_ofNat', Nat.mod_eq_of_lt (by omega)]
      omega
    · cases hx

theorem encode_eq_ok {slots : List UInt8} {p : Plaintext} :
    encode context slots = .ok p ↔ ∃ x, slots = [x] ∧ p = ⟨x &&& mask context⟩ := by
  unfold encode
  split
  · simp [eq_comm]
  · next hne => exact ⟨nofun, fun ⟨x, hx, _⟩ => absurd hx (hne x)⟩

theorem length_of_ofPlain {p : PlainValue} {slots : List UInt8} (h : Slot.ofPlain p = .ok slots) :
    slots.length = p.length?.getD 1 := by
  cases p with
  | real | reals => cases h
  | integer v =>
    have h : [v].mapM Slot.byteOf = .ok slots := h
    exact length_mapM h
  | integers l =>
    have h : l.mapM Slot.byteOf = .ok slots := h
    exact length_mapM h
  | byte x =>
    cases h
    rfl

theorem exists_ofPlain_iff {p : PlainValue} {ints : List Int} (hp : p.integers? = some ints) :
    (∃ slots : List UInt8, Slot.ofPlain p = .ok slots) ↔ ∀ x ∈ ints, 0 ≤ x ∧ x < 256 := by
  cases p with
  | real | reals => cases hp
  | integer v =>
    cases hp
    refine (mapM_byteOf (l := [v])).trans ?_
    simp
  | integers l =>
    cases hp
    refine (mapM_byteOf (l := l)).trans ?_
    simp
  | byte x =>
    cases hp
    have hlt := x.toNat_lt
    refine iff_of_true ⟨_, rfl⟩ fun y hy => ?_
    cases List.mem_singleton.mp hy
    omega

theorem map_toNat_of_ofPlain {p : PlainValue} {ints : List Int} {slots : List UInt8}
    (hp : p.integers? = some ints) (h : Slot.ofPlain p = .ok slots) :
    slots.map (fun x : UInt8 => (x.toNat : Int)) = ints := by
  cases p with
  | real | reals => cases hp
  | integer v =>
    cases hp
    exact map_toNat_of_mapM (l := [v]) h
  | integers l =>
    cases hp
    exact map_toNat_of_mapM (l := l) h
  | byte x =>
    cases hp
    cases h
    rfl

theorem counts (hc : context.Gated b) :
    contents.Counts context (fun x : UInt8 => (x.toNat : Int)) (fun x : UInt8 => x &&& mask context)
    where
  slotCount := ⟨0, hc.slotCount_eq⟩
  length := length_of_ofPlain
  accepts hp := (exists_ofPlain_iff hp).trans ⟨fun hall _ => hall, fun hall => hall rfl⟩
  ofPlain hp h := map_toNat_of_ofPlain hp h
  toPlain := by
    rintro (slots : List UInt8) hdvd
    rw [hc.slotCount_eq] at hdvd
    obtain ⟨x, rfl⟩ := List.length_eq_one_iff.mp (Nat.dvd_one.mp hdvd)
    rfl
  toInt_reduce := by
    rintro (x : UInt8)
    have hmask := and_mask hc x
    rw [Parameters.reduce, hc.scheme, hc.width]
    dsimp only
    rw [hmask, toNat_ofResidue hc.le, toNat_residue]
    push_cast
    rfl
  encode := by
    rintro (slots : List UInt8) _ _ hlength
    rw [hc.slotCount_eq] at hlength
    obtain ⟨x, rfl⟩ := List.length_eq_one_iff.mp hlength
    exact ⟨_, encode_eq_ok.mpr ⟨x, rfl, rfl⟩, rfl⟩
  encrypt := by
    rintro (slots : List UInt8) _ _ (p : Plaintext) v keyId _ hencode hv
    obtain ⟨x, -, rfl⟩ := encode_eq_ok.mp hencode
    have hmasked : x &&& mask context &&& mask context = x &&& mask context := by
      rw [UInt8.and_assoc, UInt8.and_self]
    obtain ⟨c, v', hrun, hgrows, hhosted, hcontent⟩ :=
      runs_alloc_hosted hc.scheme hv keyId (x &&& mask context)
    refine ⟨c, v', _, ?_, hgrows, hhosted, hcontent, fun secret hkey w hw => ?_⟩
    · change Runs (alloc context keyId (x &&& mask context &&& mask context)) v (.ok c) v'
      rwa [hmasked]
    · obtain ⟨cell, hcell, hk⟩ := Option.map_eq_some_iff.mp hw
      obtain ⟨hkeyId, hvalue⟩ := NativeCell.mk.inj hk
      rw [← hvalue]
      exact runs_decrypt (hkey.trans hkeyId.symm) hcell
  kept := by
    rintro v w held c k hv hkeeps hheld h
    obtain ⟨cell, hcell, rfl⟩ := Option.map_eq_some_iff.mp h
    have hkept := hkeeps.read? hv (hheld _ (List.mem_singleton.mpr rfl)) hcell
    exact Option.map_eq_some_iff.mpr ⟨cell, hkept, rfl⟩

end Gates

theorem Parameters.gated {p : Parameters} {context : Context} (hs : p.scheme = .bitwise)
    (h : p.validate = .ok ()) (hc : context.params = p) : context.Gated p.bitWidth := by
  unfold validate at h
  rw [hs] at h
  dsimp only at h
  split at h
  · cases h
  · exact ⟨hc ▸ hs, by rw [hc], by omega, by omega⟩

theorem Scheme.Contents.Integral.counts {S : Scheme} {H : S.Contents} (hH : H.Integral)
    {context : Context} (hvalid : context.params.validate = .ok ())
    (hscheme : context.params.scheme = S.kind) :
    ∃ (_ : Inhabited S.Slot) (toInt : S.Slot → Int) (reduce : S.Slot → S.Slot),
      H.Counts context toInt reduce := by
  cases hH with
  | bfv => exact ⟨⟨(0 : Int64)⟩, _, _, Exact.counts (Parameters.packs hscheme hvalid rfl) hscheme⟩
  | bitwise => exact ⟨⟨(0 : UInt8)⟩, _, _, Gates.counts (Parameters.gated hscheme hvalid rfl)⟩

/-- The integers that encoding leaves alone. -/
def Parameters.InRange (p : Parameters) (x : Int) : Prop :=
  match p.scheme with
  | .bitwise => 0 ≤ x ∧ x < 2 ^ p.bitWidth
  | .bfv | .ckks => -p.plainModulus.toNat < x * 2 ∧ x * 2 ≤ p.plainModulus.toNat

theorem Parameters.reduce_eq {p : Parameters} {x : Int} (h : p.InRange x) : p.reduce x = x := by
  unfold reduce
  unfold InRange at h
  cases hs : p.scheme with
  | bitwise =>
    rw [hs] at h
    exact Int.emod_eq_of_lt h.1 h.2
  | bfv | ckks =>
    rw [hs] at h
    dsimp only at h
    have : NeZero p.plainModulus.toNat := ⟨by omega⟩
    exact (ZMod.valMinAbs_spec _ _).mpr ⟨rfl, h⟩

theorem Parameters.reduce_spec {p : Parameters} (h : p.validate = .ok ()) (hs : p.scheme ≠ .ckks)
    (x : Int) : p.InRange (p.reduce x) ∧ p.reduce x ≡ x [ZMOD p.plainModulus.toNat] := by
  unfold reduce InRange
  cases hscheme : p.scheme with
  | ckks => exact absurd hscheme hs
  | bfv =>
    have : NeZero p.plainModulus.toNat :=
      ⟨Nat.ne_of_gt (Nat.lt_of_lt_of_le Nat.two_pos (validate_exact hscheme h).2)⟩
    refine ⟨ZMod.valMinAbs_mem_Ioc _, ?_⟩
    rw [← ZMod.intCast_eq_intCast_iff, ZMod.coe_valMinAbs]
  | bitwise =>
    have hpos : (0 : Int) < 2 ^ p.bitWidth := Int.pow_pos (by decide)
    have hmodulus : p.plainModulus.toNat = 2 ^ p.bitWidth := by
      unfold validate at h
      rw [hscheme] at h
      dsimp only at h
      split at h
      · cases h
      · split at h
        · cases h
        · next hmodulus => rwa [not_not, Nat.one_shiftLeft] at hmodulus
    refine ⟨⟨Int.emod_nonneg _ (Int.ne_of_gt hpos), Int.emod_lt_of_pos _ hpos⟩, ?_⟩
    rw [hmodulus]
    push_cast
    exact Int.mod_modEq ..

/-- Integers and bytes are encrypted just if their names are declared, their vectors fit the width a
whole number of times and, at the gates, they are bytes. What is encrypted opens to the vectors over
and over: as they were if in the clear, and otherwise reduced, which changes nothing in range. -/
theorem decrypt_encrypted {S : Scheme} {H : S.Contents} (hH : H.Integral) {p : Parameters}
    (hp : p.scheme = S.kind) {context : Context} {v₀ v₁ v : Vault} {held : List (Nat × Nat)}
    (hv₀ : v₀.Issued) (hderive : Runs (Exec.derive p) v₀ (.ok context) v₁)
    (hv : v₁.Keeps held v) {sig : Signature} (hwidth : sig.width ∣ context.slotCount)
    {valuation : Valuation} (hnames : valuation.keys.Nodup)
    (hints : ∀ e ∈ valuation.entries, e.2.integers?.isSome = true) (keyId : KeyId)
    (noise : String → Noise) :
    ((∃ inputs v', Runs (encrypt S context keyId valuation sig noise) v (.ok inputs) v') ↔
      ∀ name q ints, (name, q) ∈ valuation.entries → q.integers? = some ints →
        name ∈ sig.inputs.keys ∧ (∀ n, q.length? = some n → 0 < n ∧ n ∣ sig.width) ∧
          (S.kind = .bitwise → ∀ x ∈ ints, 0 ≤ x ∧ x < 256)) ∧
    (∀ inputs v' w held (secret : Secret S.kind),
      Runs (encrypt S context keyId valuation sig noise) v (.ok inputs) v' →
      v'.Keeps held w → (∀ cell ∈ inputs.cells, cell ∈ held) →
      secret.context = context → secret.keyId = keyId →
      (∀ name info type, name ∈ valuation.keys → sig.inputs.find? name = some info →
        sig.outputs.find? name = some type → type = info.type) →
      ∃ found, Runs (decrypt S secret inputs sig) w (.ok found) w ∧
        ∀ name q ints, (name, q) ∈ valuation.entries → q.integers? = some ints →
          ∃ info r, sig.inputs.find? name = some info ∧ found.find? name = some r ∧
            r.integers? = some ((List.range sig.width).map fun i =>
              if info.type = .raw then ints.getD (i % ints.length) 0
              else p.reduce (ints.getD (i % ints.length) 0))) ∧
    ∀ x, p.InRange (p.reduce x) ∧ p.reduce x ≡ x [ZMOD p.plainModulus.toNat] ∧
      (p.InRange x → p.reduce x = x) := by
  obtain ⟨hparams, hvalid⟩ := ContextCache.derive_ok hderive
  subst hparams
  have hhosted := Context.hosted_of_derive hv₀ hderive held hv
  obtain ⟨_, toInt, reduce, hc⟩ := hH.counts hvalid hp
  have hkind : context.params.scheme ≠ .ckks := by
    rw [hp]
    cases hH <;> nofun
  refine ⟨exists_encrypt_iff keyId noise hc hwidth hhosted hints, ?_, fun x => ?_⟩
  · intro inputs v' w held secret h hkeeps hheld hcontext hkey hclass
    exact decrypt_of_encrypt hH.lawful hc hwidth hhosted hnames h hkeeps hheld hcontext hkey hclass
  · obtain ⟨hrange, hmod⟩ := Parameters.reduce_spec hvalid hkind x
    exact ⟨hrange, hmod, Parameters.reduce_eq⟩

/-- Two lanes and a byte, for a signature four wide that leaves the byte in the clear. -/
def lanesAndByte : Valuation := ⟨[("x", .integers [-3, 6144]), ("y", .byte 5)]⟩

def fourWide : Signature := ⟨4, ⟨[("x", ⟨.cipher, 0, 0⟩), ("y", ⟨.raw, 0, 0⟩)]⟩, ∅⟩

theorem decrypt_encrypted_lanesAndByte :
    ∃ (secret : Secret .bfv) (v : Vault) (inputs : SchemeValuation .bfv) (v' : Vault)
      (found : Valuation),
      Runs (Exec.derive (.bfv 1024 12289)) .empty (.ok secret.context) v ∧
      Runs (encrypt .bfv secret.context secret.keyId lanesAndByte fourWide) v (.ok inputs) v' ∧
      Runs (decrypt .bfv secret inputs fourWide) v' (.ok found) v' ∧
      (∃ x, found.find? "x" = some x ∧ x.integers? = some [-3, 6144, -3, 6144]) ∧
      ∃ y, found.find? "y" = some y ∧ y.integers? = some [5, 5, 5, 5] := by
  have hissued : Vault.Issued .empty := fun _ hheap => absurd hheap List.not_mem_nil
  have hderive : Runs (Exec.derive (.bfv 1024 12289)) .empty (.ok ⟨0, .bfv 1024 12289⟩)
      ⟨[.empty]⟩ := rfl
  have hkeeps : Vault.Keeps [] ⟨[.empty]⟩ ⟨[.empty]⟩ := .refl
  have hwidth : fourWide.width ∣ Context.slotCount ⟨0, .bfv 1024 12289⟩ := by decide
  have hnames : lanesAndByte.keys.Nodup := by decide
  obtain ⟨haccept, hopen, hreduce⟩ := decrypt_encrypted .bfv rfl hissued hderive hkeeps hwidth
    hnames (by decide) (SecretKey.mk []).keyId fun _ => .silent
  have hentries : ∀ name q, (name, q) ∈ lanesAndByte.entries →
      (name = "x" ∧ q = .integers [-3, 6144]) ∨ name = "y" ∧ q = .byte 5 := by
    simp [lanesAndByte]
  obtain ⟨inputs, v', hencrypt⟩ := haccept.mpr fun name q ints hq _ => by
    refine ⟨?_, ?_, nofun⟩
    · obtain ⟨rfl, -⟩ | ⟨rfl, -⟩ := hentries name q hq <;> decide
    · obtain ⟨-, rfl⟩ | ⟨-, rfl⟩ := hentries name q hq
      · rintro _ ⟨⟩
        decide
      · nofun
  obtain ⟨found, hdecrypt, hfound⟩ := hopen inputs v' v' inputs.cells ⟨_, ⟨[]⟩, rfl⟩ hencrypt .refl
    (fun _ h => h) rfl rfl nofun
  refine ⟨⟨_, ⟨[]⟩, rfl⟩, _, inputs, v', found, hderive, hencrypt, hdecrypt, ?_, ?_⟩
  · obtain ⟨info, x, hinfo, hx, hints⟩ :=
      hfound "x" _ [-3, 6144] List.mem_cons_self rfl
    cases hinfo
    have hkept {n : Int} (hn : -12289 < n * 2 ∧ n * 2 ≤ 12289) :
        (Parameters.bfv 1024 12289).reduce n = n := (hreduce n).2.2 hn
    have hlow := hkept (n := -3) (by decide)
    have hhigh := hkept (n := 6144) (by decide)
    exact ⟨x, hx, by simpa [fourWide, List.range_succ, hlow, hhigh] using hints⟩
  · obtain ⟨info, y, hinfo, hy, hints⟩ :=
      hfound "y" _ [5] (List.mem_cons_of_mem _ List.mem_cons_self) rfl
    cases hinfo
    exact ⟨y, hy, hints⟩

end CipherGraph

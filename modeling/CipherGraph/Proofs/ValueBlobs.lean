import CipherGraph.Blob.Values
import CipherGraph.Proofs.Bits
import CipherGraph.Proofs.BundleCodecs
import CipherGraph.Proofs.TypeSafety
import CipherGraph.Proofs.Vaults

/-! # Blobs of values read back

A blob gives back the values that were put in it: the same names in their order, each with the same
class, key and content. Encrypted values of the gates are put in new cells. Classes that are
expected change nothing as long as they are met, and the first value that has another one is named.
-/

namespace CipherGraph

open Json

theorem PlainValue.travels_integers (values : List Int64) :
    Travels (PlainValue.integers values) := by
  have hvalues := travels_list fun v (_ : v ∈ values) => travels_signed v
  refine ⟨written_ofChoice hvalues.written, ?_⟩
  change (content? (ofChoice "I64Vec" (toJson values))).bind _ = _
  rw [content?_ofChoice]
  simp [hvalues.reads]

theorem PlainValue.travels_byte (value : UInt8) : Travels (PlainValue.byte value) := by
  have hvalue := CipherGraph.travels_byte value
  refine ⟨written_ofChoice hvalue.written, ?_⟩
  change (content? (ofChoice "Byte" (toJson value))).bind _ = _
  rw [content?_ofChoice]
  simp [hvalue.reads]

theorem travels_bytes (data : Bytes) : Travels data :=
  travels_list fun b _ => travels_byte b

theorem travels_words (words : List UInt64) : Travels words :=
  travels_list fun w _ => travels_word w

theorem PackedPlaintext.travels {p : PackedPlaintext UInt64} (hlevel : p.level < UInt32.size)
    (hscale : p.scaleBits < UInt32.size) : Travels p := by
  have hslots := travels_words p.slots
  have hlevel : below? UInt32.size (toJson p.level) = some p.level := below?_ofNat hlevel
  have hscale : below? UInt32.size (toJson p.scaleBits) = some p.scaleBits := below?_ofNat hscale
  refine travels_record rfl (fun _ => rfl) rfl (by simp)
    (by simp [written_nat, hslots.written]) ?_
  simp [required?, hlevel, hscale, hslots.reads]

theorem PackedCiphertext.travels {c : PackedCiphertext UInt64} (hlevel : c.level < UInt32.size)
    (hscale : c.scaleBits < UInt32.size) : Travels c := by
  have hkey := travels_word c.keyId
  have hslots := travels_words c.slots
  have hlevel : below? UInt32.size (toJson c.level) = some c.level := below?_ofNat hlevel
  have hscale : below? UInt32.size (toJson c.scaleBits) = some c.scaleBits := below?_ofNat hscale
  refine travels_record rfl (fun _ => rfl) rfl (by simp)
    (by simp [written_nat, hkey.written, hslots.written]) ?_
  simp [required?, hkey.reads, hlevel, hscale, hslots.reads]

theorem Gates.travels_cell (cell : NativeCell) : Travels cell := by
  have hkey := travels_word cell.keyId
  have hvalue := travels_byte cell.value
  refine travels_record rfl (fun _ => rfl) rfl (by simp)
    (by simp [hkey.written, hvalue.written]) ?_
  simp [required?, hkey.reads, hvalue.reads]

theorem Gates.Plaintext.travels (p : Plaintext) : Travels p := by
  have hvalue := travels_byte p.value
  refine travels_record rfl (fun _ => rfl) rfl (by simp) (by simp [hvalue.written]) ?_
  simp [required?, hvalue.reads]

theorem TaggedBytes.travels (t : TaggedBytes) : Travels t := by
  have htag := travels_string t.tag
  have hdata := travels_bytes t.data
  refine travels_record rfl (fun _ => rfl) rfl (by simp)
    (by simp [htag.written, hdata.written]) ?_
  simp [required?, htag.reads, hdata.reads]

theorem ValuesPayload.travels {p : ValuesPayload} (h : p.entries.keys.Nodup) : Travels p := by
  have hentries := travels_table h fun e _ => e.2.travels
  refine travels_record rfl (fun _ => rfl) rfl (by simp) (by simp [hentries.written]) ?_
  simp [required?, hentries.reads]

theorem Travels.readReceived {α : Type} [ToJson α] [OfJson α] {a : α} (h : Travels a) :
    CipherGraph.readReceived (toJson a).render = .ok a := by
  rw [CipherGraph.readReceived, h.read?]

/-- A vault in which no handle was handed out twice, and which has the heap of the context. -/
structure Context.Hosted (context : Context) (v : Vault) : Prop where
  issued : v.Issued
  heap : context.hasHeap = true → ∃ heap, v.heap? context.number = some heap

/-- A context that has been derived is hosted from then on, whatever becomes of the vault. -/
theorem Context.hosted_of_derive {p : Parameters} {context : Context} {v w w' : Vault}
    (hv : v.Issued) (h : Runs (Exec.derive p) v (.ok context) w) (held : List (Nat × Nat))
    (hkeeps : w.Keeps held w') : context.Hosted w' := by
  have hlength : w.heaps.length ≤ w'.heaps.length := by
    clear h
    induction hkeeps with
    | refl => exact le_rfl
    | derive _ ih => exact ih.trans (by simp)
    | alloc _ _ _ ih => exact ih.trans (by simp)
    | sweep _ _ ih => exact ih.trans (by simp [Vault.sweep])
  unfold Exec.derive at h
  split at h
  · cases (runs_throw.mp h).1
  · rw [runs_get_bind, runs_set_bind] at h
    obtain ⟨hcontext, rfl⟩ := runs_pure.mp h
    cases hcontext
    have hderived : v.Keeps [] ⟨v.heaps ++ [.empty]⟩ := .derive .refl
    have hlt : v.heaps.length < w'.heaps.length := by simpa [Nat.succ_le_iff] using hlength
    exact ⟨hkeeps.issued (hderived.issued hv), fun _ => ⟨_, List.getElem?_eq_getElem hlt⟩⟩

/-- What the ciphertexts of a scheme hold, wherever they keep it, and what of it fits some
parameters. -/
structure Scheme.Contents (S : Scheme) where
  Content : Type
  content? : Vault → S.Ciphertext → Option Content
  Fits : Parameters → Content → Prop
  FitsPlain : Parameters → S.Plaintext → Prop

/-- A residue for every slot. -/
structure Exact.SlotsFit (p : Parameters) (slots : List UInt64) : Prop where
  count : slots.length = p.slotCount
  residues : ∀ r ∈ slots, r.toNat < p.plainModulus.toNat

/-- Packed ciphertexts hold all that they have; levels and scales are words of 32 bits. -/
def Exact.contents : Scheme.bfv.Contents where
  Content := Exact.Ciphertext
  content? _ c := some c
  Fits p c := SlotsFit p c.slots ∧ c.level < UInt32.size ∧ c.scaleBits < UInt32.size
  FitsPlain p m := SlotsFit p m.slots ∧ m.level < UInt32.size ∧ m.scaleBits < UInt32.size

/-- Ciphertexts of the gates have their bits in a cell. -/
def Gates.contents : Scheme.bitwise.Contents where
  Content := NativeCell
  content? v c := (cell? c v).map fun cell => ⟨c.keyId, cell.value⟩
  Fits p cell := p.scheme = .bitwise ∧ cell.value.toNat < 2 ^ p.bitWidth
  FitsPlain p m := m.value.toNat < 2 ^ p.bitWidth

namespace Scheme.Contents

variable {S : Scheme}

/-- The two families that compute with integers. -/
inductive Integral : {S : Scheme} → S.Contents → Prop where
  | bfv : Integral Exact.contents
  | bitwise : Integral Gates.contents

/-- What fits some parameters is read back in any context that has them, and stays. -/
structure Lawful (H : S.Contents) : Prop where
  lasting : ∀ {v w : Vault} {c : S.Ciphertext} {k : H.Content}, v.Issued → v.Extends w →
    H.content? v c = some k → H.content? w c = some k
  cipher : ∀ {context : Context} {v : Vault} {c : S.Ciphertext} {k : H.Content},
    H.content? v c = some k → H.Fits context.params k →
      ∃ data, Runs (S.writeCiphertext c) v (.ok data) v ∧ ∀ other : Context,
        other.params = context.params → ∀ w, other.Hosted w →
          ∃ d w', Runs (S.readCiphertext other data) w (.ok d) w' ∧ w.Extends w' ∧
            other.Hosted w' ∧ H.content? w' d = some k
  plain : ∀ {context : Context} {m : S.Plaintext}, H.FitsPlain context.params m →
    S.readPlaintext context (S.writePlaintext m) = .ok m
  raw : ∀ slot : S.Slot, Travels (Slot.toPlain [slot]) ∧
    (Slot.ofPlain (Slot.toPlain [slot]) : Except SlotFault (List S.Slot)) = .ok [slot]

end Scheme.Contents

namespace Exact

variable {context : Context} {slots : List UInt64}

theorem SlotsFit.accepted {α : Type} (h : SlotsFit context.params slots) (a : α) :
    (do
      Packed.checkReceived context slots.length
      checkResidues context slots
      return a) = .ok a := by
  have hcount : Packed.checkReceived context slots.length = .ok () := if_pos h.count
  have hnone : slots.find? (fun r => r.toNat ≥ modulus context) = none := by
    refine List.find?_eq_none.mpr fun r hr => ?_
    rw [decide_eq_true_eq]
    exact Nat.not_le.mpr (h.residues r hr)
  rw [hcount, checkResidues, hnone]
  rfl

theorem readCiphertext_render {c : Ciphertext} (h : contents.Fits context.params c) :
    readCiphertext context (toJson c).render = .ok c := by
  obtain ⟨hslots, hlevel, hscale⟩ := h
  rw [readCiphertext, (PackedCiphertext.travels hlevel hscale).readReceived]
  exact hslots.accepted c

theorem readPlaintext_render {m : Plaintext} (h : contents.FitsPlain context.params m) :
    readPlaintext context (toJson m).render = .ok m := by
  obtain ⟨hslots, hlevel, hscale⟩ := h
  rw [readPlaintext, (PackedPlaintext.travels hlevel hscale).readReceived]
  exact hslots.accepted m

theorem lawful_contents : contents.Lawful where
  lasting _ _ h := h
  cipher := by
    rintro context v c _ ⟨⟩ hfits
    refine ⟨_, runs_pure.mpr ⟨rfl, rfl⟩, fun other hparams w hw => ⟨c, w, ?_, .refl w, hw, rfl⟩⟩
    rw [← hparams] at hfits
    exact runs_liftM.mpr ⟨(readCiphertext_render hfits).symm, rfl⟩
  plain := readPlaintext_render
  raw slot := ⟨PlainValue.travels_integers [slot], rfl⟩

end Exact

namespace Gates

variable {context : Context}

theorem and_mask_of_lt {x : UInt8} (h : x.toNat < 2 ^ context.params.bitWidth) :
    x &&& mask context = x := by
  have hle : min context.params.bitWidth 8 ≤ 8 := Nat.min_le_right ..
  have hlt : x.toNat < 2 ^ min context.params.bitWidth 8 := by
    rcases Nat.le_total context.params.bitWidth 8 with hb | hb
    · rwa [Nat.min_eq_left hb]
    · rw [Nat.min_eq_right hb]
      exact x.toNat_lt
  rw [mask, and_ones hle, ← UInt8.toNat_inj, toNat_ofResidue hle, toNat_residue,
    Nat.mod_eq_of_lt hlt]

theorem and_not_mask_of_lt {x : UInt8} (h : x.toNat < 2 ^ context.params.bitWidth) :
    x &&& ~~~mask context = 0 := by
  rw [← and_mask_of_lt h, UInt8.and_assoc]
  simp

theorem runs_alloc_hosted {v : Vault} (hscheme : context.params.scheme = .bitwise)
    (hv : context.Hosted v) (keyId : KeyId) (x : UInt8) :
    ∃ d v', Runs (alloc context keyId x) v (.ok d) v' ∧ v.Extends v' ∧ context.Hosted v' ∧
      contents.content? v' d = some ⟨keyId, x⟩ := by
  have hheap : context.hasHeap = true := by simp [Context.hasHeap, Context.scheme, hscheme]
  obtain ⟨heap, hfound⟩ := hv.heap hheap
  have hrun : Runs (alloc context keyId x) v (.ok ⟨context.number, heap.next, keyId⟩)
      ⟨v.heaps.set context.number (heap.alloc ⟨keyId, x⟩).2⟩ := by
    rw [alloc, if_pos hheap]
    refine (runs_bind_of_ok ?_).mpr (runs_pure.mpr ⟨rfl, rfl⟩)
    unfold Native.alloc
    rw [runs_get_bind, hfound]
    exact runs_set_bind.mpr (runs_pure.mpr ⟨rfl, rfl⟩)
  have hgrows := Vault.extends_alloc hfound ⟨keyId, x⟩
  refine ⟨_, _, hrun, hgrows, ⟨hgrows.issued hv.issued, fun _ => ?_⟩, ?_⟩
  · have hlt := (List.getElem?_eq_some_iff.mp hfound).1
    exact ⟨_, List.getElem?_set_self hlt⟩
  · obtain ⟨-, hcell⟩ := runs_alloc_ok hrun
    change (cell? _ _).map _ = _
    rw [hcell]
    rfl

theorem runs_readCiphertext {cell : NativeCell} {v : Vault} (hv : context.Hosted v)
    (h : contents.Fits context.params cell) :
    ∃ d v', Runs (readCiphertext context (toJson cell).render) v (.ok d) v' ∧ v.Extends v' ∧
      context.Hosted v' ∧ contents.content? v' d = some cell := by
  obtain ⟨hscheme, hbits⟩ := h
  obtain ⟨d, v', hrun, hd⟩ := runs_alloc_hosted hscheme hv cell.keyId cell.value
  refine ⟨d, v', ?_, hd⟩
  unfold readCiphertext
  rw [(travels_cell cell).readReceived, runs_bind_of_ok (runs_liftM.mpr ⟨rfl, rfl⟩),
    if_neg (by simp [and_not_mask_of_lt hbits])]
  exact hrun

theorem readPlaintext_render {m : Plaintext} (h : contents.FitsPlain context.params m) :
    readPlaintext context (toJson m).render = .ok m := by
  rw [readPlaintext, m.travels.readReceived]
  exact congrArg (fun x => Except.ok (Plaintext.mk x)) (and_mask_of_lt h)

theorem lawful_contents : contents.Lawful where
  lasting := by
    intro v w c k hv hgrows hk
    obtain ⟨cell, hcell, rfl⟩ := Option.map_eq_some_iff.mp hk
    exact Option.map_eq_some_iff.mpr ⟨cell, hgrows.cells hv _ _ _ hcell, rfl⟩
  cipher := by
    intro context v c k hk hfits
    obtain ⟨cell, hcell, rfl⟩ := Option.map_eq_some_iff.mp hk
    have hvalue : Runs (value c) v (.ok cell.value) v :=
      runs_value_ok.mpr ⟨⟨cell, hcell, rfl⟩, rfl⟩
    refine ⟨_, (runs_bind_of_ok hvalue).mpr (runs_pure.mpr ⟨rfl, rfl⟩),
      fun other hparams w hw => ?_⟩
    rw [← hparams] at hfits
    exact runs_readCiphertext hw hfits
  plain := readPlaintext_render
  raw slot := ⟨PlainValue.travels_byte slot, rfl⟩

end Gates

theorem Scheme.Contents.Integral.lawful {S : Scheme} {H : S.Contents} (h : H.Integral) :
    H.Lawful := by
  cases h with
  | bfv => exact Exact.lawful_contents
  | bitwise => exact Gates.lawful_contents

variable {S : Scheme} {H : S.Contents} {context other : Context} {v w w' : Vault}
  {x y : Value S} {name : String}

/-- A value that fits the context. Raw slots are whatever they are. -/
inductive Value.Fits (H : S.Contents) (context : Context) (v : Vault) : Value S → Prop where
  | cipher {c : S.Ciphertext} {k : H.Content} (hk : H.content? v c = some k)
      (h : H.Fits context.params k) : Fits H context v (.cipher c)
  | plain {m : S.Plaintext} (h : H.FitsPlain context.params m) : Fits H context v (.plain m)
  | raw (slots : List S.Slot) : Fits H context v (.raw slots)

/-- Values that are the same, apart from where each has what it holds. -/
inductive Value.Alike (H : S.Contents) (v w : Vault) : Value S → Value S → Prop where
  | cipher {c d : S.Ciphertext} {k : H.Content} (hc : H.content? v c = some k)
      (hd : H.content? w d = some k) : Alike H v w (.cipher c) (.cipher d)
  | plain (m : S.Plaintext) : Alike H v w (.plain m) (.plain m)
  | raw (slots : List S.Slot) : Alike H v w (.raw slots) (.raw slots)

theorem Value.Alike.extends (hH : H.Lawful) (h : x.Alike H v w y) (hw : w.Issued)
    (hgrows : w.Extends w') : x.Alike H v w' y := by
  cases h with
  | cipher hc hd => exact .cipher hc (hH.lasting hw hgrows hd)
  | plain m => exact .plain m
  | raw slots => exact .raw slots

theorem runs_inBlob_ok {α : Type} {n : Native α} {a : α} (h : Runs n v (.ok a) w) :
    Runs n.inBlob v (.ok a) w := by
  change n.inBlob v = _
  unfold Native.inBlob
  unfold Runs at h
  rw [h]

/-- The bytes are those of the value: in every context with the same parameters they are read as a
value alike. -/
def Value.Encodes (H : S.Contents) (context : Context) (v : Vault) (x : Value S)
    (data : Bytes) : Prop :=
  ∀ other : Context, other.params = context.params → ∀ w, other.Hosted w → ∀ name,
    ∃ y w', Runs (readValue S other name x.type data) w (.ok y) w' ∧ w.Extends w' ∧
      other.Hosted w' ∧ x.Alike H v w' y

theorem readRaw_render (hH : H.Lawful) (name : String) (slots : List S.Slot) :
    readRaw S name (toJson (slots.map fun slot => Slot.toPlain [slot])).render = .ok slots := by
  have htravels : Travels (slots.map fun slot => Slot.toPlain [slot]) := by
    refine travels_list fun p hp => ?_
    obtain ⟨slot, -, rfl⟩ := List.mem_map.mp hp
    exact (hH.raw slot).1
  rw [readRaw, htravels.read?]
  dsimp only
  rw [List.mapM_map, mapM_eq_ok (g := ([·])) ?_]
  · change Except.ok (slots.map ([·])).flatten = _
    rw [← List.flatMap_def, List.flatMap_singleton']
  · intro slot _
    dsimp only [Function.comp]
    rw [(hH.raw slot).2]

theorem Value.Fits.write (hH : H.Lawful) (h : x.Fits H context v) :
    ∃ data, Runs (writeValue S x) v (.ok data) v ∧ x.Encodes H context v data := by
  cases h with
  | cipher hk h =>
    obtain ⟨data, hwrite, hread⟩ := hH.cipher hk h
    refine ⟨data, runs_inBlob_ok hwrite, fun other hparams w hw name => ?_⟩
    obtain ⟨d, w', hrun, hgrows, hhosted, hd⟩ := hread other hparams w hw
    refine ⟨.cipher d, w', ?_, hgrows, hhosted, .cipher hk hd⟩
    exact (runs_bind_of_ok (runs_inBlob_ok hrun)).mpr (runs_pure.mpr ⟨rfl, rfl⟩)
  | @plain m h =>
    refine ⟨_, runs_pure.mpr ⟨rfl, rfl⟩, fun other hparams w hw name => ?_⟩
    rw [← hparams] at h
    refine ⟨.plain m, w, ?_, .refl w, hw, .plain m⟩
    refine (runs_bind_of_ok (runs_inBlob_ok (runs_liftM.mpr ⟨?_, rfl⟩))).mpr
      (runs_pure.mpr ⟨rfl, rfl⟩)
    exact (hH.plain h).symm
  | raw slots =>
    refine ⟨_, runs_pure.mpr ⟨rfl, rfl⟩, fun other _ w hw name => ?_⟩
    refine ⟨.raw slots, w, ?_, .refl w, hw, .raw slots⟩
    exact (runs_bind_of_ok (runs_liftM.mpr ⟨(readRaw_render hH name slots).symm, rfl⟩)).mpr
      (runs_pure.mpr ⟨rfl, rfl⟩)

theorem ValueClass.ofBlobTag?_blobTag (c : ValueClass) : ofBlobTag? c.blobTag = some c := by
  cases c <;> decide

namespace ExpectedClasses

variable {expected : ExpectedClasses}

/-- Where the classes name the value, they name its own. -/
def Allows (expected : ExpectedClasses) (e : String × Value S) : Prop :=
  ∀ wanted, expected.find? e.1 = some wanted → wanted = e.2.type

theorem allows_any (e : String × Value S) : any.Allows e := by
  rintro _ ⟨⟩

end ExpectedClasses

variable {expected : ExpectedClasses}

theorem readTagged_of_allows (h : expected.Allows (name, x)) (context : Context) (data : Bytes) :
    readTagged S context expected name ⟨x.type.blobTag, data⟩ =
      readValue S context name x.type data := by
  rw [readTagged]
  dsimp only
  rw [ValueClass.ofBlobTag?_blobTag]
  dsimp only
  split
  · next wanted hwanted => rw [h wanted hwanted, if_neg (not_not.mpr rfl)]
  · rfl

theorem runs_readTagged_of_ne {wanted : ValueClass} (hwanted : expected.find? name = some wanted)
    (hne : wanted ≠ x.type) (context : Context) (data : Bytes) (w : Vault) :
    Runs (readTagged S context expected name ⟨x.type.blobTag, data⟩) w
      (.error (.wrongTag name wanted x.type)) w := by
  rw [readTagged]
  dsimp only
  rw [ValueClass.ofBlobTag?_blobTag]
  dsimp only
  rw [hwanted]
  dsimp only
  rw [if_pos hne]
  exact runs_throw_bind.mpr ⟨rfl, rfl⟩

def tagged (data : String × Value S → Bytes) (entries : List (String × Value S)) :
    List (String × TaggedBytes) :=
  entries.map fun e => (e.1, ⟨e.2.type.blobTag, data e⟩)

def readEntry (S : Scheme) (context : Context) (expected : ExpectedClasses)
    (found : SchemeValuation S) (e : String × TaggedBytes) : Blobbing (SchemeValuation S) := do
  return found.insert e.1 (← readTagged S context expected e.1 e.2)

/-- Entries with the same names and values that are alike. -/
def AlikeEntries (H : S.Contents) (v w : Vault) (entries read : List (String × Value S)) : Prop :=
  List.Forall₂ (fun e e' => e.1 = e'.1 ∧ e.2.Alike H v w e'.2) entries read

variable {data : String × Value S → Bytes} {entries : List (String × Value S)}

theorem readEntries_of_allows (h : ∀ e ∈ entries, expected.Allows e) (context : Context)
    (found : SchemeValuation S) :
    (tagged data entries).foldlM (readEntry S context expected) found =
      (tagged data entries).foldlM (readEntry S context .any) found := by
  induction entries generalizing found with
  | nil => rfl
  | cons e entries ih =>
    obtain ⟨he, hentries⟩ := List.forall_mem_cons.mp h
    rw [tagged, List.map_cons, List.foldlM_cons, List.foldlM_cons, readEntry, readEntry,
      readTagged_of_allows he, readTagged_of_allows (ExpectedClasses.allows_any e)]
    exact congrArg _ (funext fun found => ih hentries found)

theorem runs_readEntries (hH : H.Lawful) (hparams : other.params = context.params)
    (hencodes : ∀ e ∈ entries, e.2.Encodes H context v (data e))
    (hall : ∀ e ∈ entries, expected.Allows e) (hw : other.Hosted w) (found : SchemeValuation S)
    (hnames : (found.keys ++ entries.map (·.1)).Nodup) :
    ∃ read w' added, Runs ((tagged data entries).foldlM (readEntry S other expected) found) w
        (.ok read) w' ∧ w.Extends w' ∧ other.Hosted w' ∧
      read.entries = found.entries ++ added ∧ AlikeEntries H v w' entries added := by
  induction entries generalizing found w with
  | nil =>
    exact ⟨found, w, [], runs_pure.mpr ⟨rfl, rfl⟩, .refl w, hw, (List.append_nil _).symm, .nil⟩
  | cons e entries ih =>
    obtain ⟨he, hencodes⟩ := List.forall_mem_cons.mp hencodes
    obtain ⟨hallowed, hall⟩ := List.forall_mem_cons.mp hall
    obtain ⟨y, w₁, hrun, hgrows₁, hw₁, hy⟩ := he other hparams w hw e.1
    have hnew : e.1 ∉ found.keys := fun hmem =>
      (List.nodup_append.mp hnames).2.2 _ hmem _ List.mem_cons_self rfl
    have hfound := OrderedMap.entries_insert_of_not_mem (v := y) hnew
    have hkeys : (found.insert e.1 y).keys = found.keys ++ [e.1] := by
      rw [OrderedMap.keys, hfound, List.map_append]
      rfl
    obtain ⟨read, w', added, hread, hgrows, hw', hentries, halike⟩ :=
      ih hencodes hall hw₁ (found.insert e.1 y) (by rw [hkeys]; simpa using hnames)
    refine ⟨read, w', (e.1, y) :: added, ?_, hgrows₁.trans hgrows, hw', ?_,
      .cons ⟨rfl, hy.extends hH hw₁.issued hgrows⟩ halike⟩
    · rw [tagged, List.map_cons, List.foldlM_cons]
      refine (runs_bind_of_ok (a := found.insert e.1 y) ?_).mpr hread
      rw [readEntry, readTagged_of_allows hallowed]
      exact (runs_bind_of_ok hrun).mpr (runs_pure.mpr ⟨rfl, rfl⟩)
    · rw [hentries, hfound, List.append_assoc]
      rfl

theorem runs_readEntries_error (hH : H.Lawful) (hparams : other.params = context.params)
    {wanted : ValueClass} (hencodes : ∀ e ∈ entries, e.2.Encodes H context v (data e))
    (hall : ∀ e ∈ entries, expected.Allows e) (hw : other.Hosted w)
    (hnames : (entries.map (·.1)).Nodup) (hwanted : expected.find? name = some wanted)
    (hne : wanted ≠ x.type) (after : List (String × Value S)) :
    ∃ w', Runs ((tagged data (entries ++ (name, x) :: after)).foldlM
      (readEntry S other expected) ∅) w (.error (.wrongTag name wanted x.type)) w' := by
  obtain ⟨read, w', added, hread, -, -, -, -⟩ :=
    runs_readEntries hH hparams hencodes hall hw ∅ hnames
  refine ⟨w', ?_⟩
  rw [tagged, List.map_append, List.foldlM_append]
  refine (runs_bind_of_ok hread).mpr ?_
  rw [List.map_cons, List.foldlM_cons]
  refine runs_bind_error.mpr (.inl ?_)
  exact runs_bind_error.mpr (.inl (runs_readTagged_of_ne hwanted hne other _ w'))

theorem ExpectedClasses.exists_first_not_allows (h : ¬∀ e ∈ entries, expected.Allows e) :
    ∃ before name x after wanted, entries = before ++ (name, x) :: after ∧
      (∀ e ∈ before, expected.Allows e) ∧ expected.find? name = some wanted ∧ wanted ≠ x.type := by
  induction entries with
  | nil => exact absurd (fun e he => absurd he List.not_mem_nil) h
  | cons e entries ih =>
    by_cases he : expected.Allows e
    · have hrest : ¬∀ e ∈ entries, expected.Allows e := fun hall =>
        h (List.forall_mem_cons.mpr ⟨he, hall⟩)
      obtain ⟨before, name, x, after, wanted, rfl, hbefore, hx⟩ := ih hrest
      exact ⟨e :: before, name, x, after, wanted, rfl, List.forall_mem_cons.mpr ⟨he, hbefore⟩, hx⟩
    · unfold Allows at he
      push Not at he
      obtain ⟨wanted, hwanted, hne⟩ := he
      exact ⟨[], e.1, e.2, entries, wanted, rfl, fun _ h => absurd h List.not_mem_nil, hwanted, hne⟩

def sealedEntries (data : String × Value S → Bytes) (entries : List (String × Value S)) :
    Envelope :=
  .wrap .valuation S.kind (ValuesPayload.mk ⟨tagged data entries⟩)

theorem runs_wrapValues {values : SchemeValuation S}
    (h : ∀ e ∈ values.entries, Runs (writeValue S e.2) v (.ok (data e)) v) :
    Runs (wrapValues S values) v (.ok (sealedEntries data values.entries)) v := by
  refine (runs_bind_of_ok (runs_mapM fun e he => ?_)).mpr (runs_pure.mpr ⟨rfl, rfl⟩)
  exact (runs_bind_of_ok (h e he)).mpr (runs_pure.mpr ⟨rfl, rfl⟩)

theorem runs_unwrapValues (hnames : (entries.map (·.1)).Nodup)
    {r : Except BlobError (SchemeValuation S)} :
    Runs (unwrapValues S other (sealedEntries data entries).toBytes expected) w r w' ↔
      Runs ((tagged data entries).foldlM (readEntry S other expected) ∅) w r w' := by
  have hkeys : (OrderedMap.mk (tagged data entries)).keys.Nodup := by
    rw [OrderedMap.keys, tagged, List.map_map]
    exact hnames
  have hpayload : Travels (ValuesPayload.mk ⟨tagged data entries⟩) := ValuesPayload.travels hkeys
  exact runs_bind_of_ok (runs_liftM.mpr ⟨(Envelope.unwrap_wrap hpayload _ _).symm, rfl⟩)

/-- Values that fit a context go into a blob, and in every context with the same parameters they
come out alike, in their order. If some classes are expected, they come out just the same as long
as each of them is met; otherwise the first value that has another class is refused. -/
theorem unwrapValues_wrapValues (hH : H.Integral) {values : SchemeValuation S}
    (hnames : values.keys.Nodup) (hfits : ∀ e ∈ values.entries, e.2.Fits H context v)
    (hparams : other.params = context.params) (hw : other.Hosted w) :
    ∃ blob, Runs (wrapValues S values) v (.ok blob) v ∧ ∃ read w',
      Runs (unwrapValues S other blob.toBytes .any) w (.ok read) w' ∧ w.Extends w' ∧
      AlikeEntries H v w' values.entries read.entries ∧ ∀ expected : ExpectedClasses,
        (Runs (unwrapValues S other blob.toBytes expected) w (.ok read) w' ↔
          ∀ e ∈ values.entries, expected.Allows e) ∧
        ∀ before name (x : Value S) after wanted,
          values.entries = before ++ (name, x) :: after → (∀ e ∈ before, expected.Allows e) →
          expected.find? name = some wanted → wanted ≠ x.type →
          ∃ w'', Runs (unwrapValues S other blob.toBytes expected) w
            (.error (.wrongTag name wanted x.type)) w'' := by
  have hwritten : ∀ e ∈ values.entries, ∃ bytes,
      Runs (writeValue S e.2) v (.ok bytes) v ∧ e.2.Encodes H context v bytes :=
    fun e he => (hfits e he).write hH.lawful
  choose! data hwrite hencodes using hwritten
  obtain ⟨read, w', added, hread, hgrows, -, hadded, halike⟩ :=
    runs_readEntries hH.lawful hparams hencodes (fun e _ => ExpectedClasses.allows_any e) hw ∅
      hnames
  obtain rfl : read.entries = added := hadded
  have hrefused (expected : ExpectedClasses) (before name) (x : Value S) (after wanted)
      (hsplit : values.entries = before ++ (name, x) :: after)
      (hbefore : ∀ e ∈ before, expected.Allows e) (hwanted : expected.find? name = some wanted)
      (hne : wanted ≠ x.type) : ∃ w'', Runs (unwrapValues S other
        (sealedEntries data values.entries).toBytes expected) w
        (.error (.wrongTag name wanted x.type)) w'' := by
    have hbeforeNames : (before.map (·.1)).Nodup := by
      rw [OrderedMap.keys, hsplit, List.map_append] at hnames
      exact (List.nodup_append.mp hnames).1
    obtain ⟨w'', hrun⟩ := runs_readEntries_error hH.lawful hparams
      (fun e he => hencodes e (hsplit ▸ List.mem_append_left _ he)) hbefore hw hbeforeNames
      hwanted hne after
    exact ⟨w'', (runs_unwrapValues hnames).mpr (hsplit ▸ hrun)⟩
  refine ⟨_, runs_wrapValues hwrite, read, w', (runs_unwrapValues hnames).mpr hread, hgrows,
    halike, fun expected => ⟨⟨fun hok => ?_, fun hall => ?_⟩, hrefused expected⟩⟩
  · by_contra hnot
    obtain ⟨before, name, x, after, wanted, hsplit, hbefore, hwanted, hne⟩ :=
      ExpectedClasses.exists_first_not_allows hnot
    obtain ⟨w'', herror⟩ := hrefused expected _ _ _ _ _ hsplit hbefore hwanted hne
    cases (hok.unique herror).1
  · rw [runs_unwrapValues hnames, readEntries_of_allows hall]
    exact hread

/-- An encrypted six, an encoded byte and two bytes in the clear. -/
def sixAndBytes : SchemeValuation .bitwise :=
  ⟨[("six", .cipher (Gates.Ciphertext.mk 0 0 0)), ("λ\n", .plain (Gates.Plaintext.mk 255)),
    ("", .raw [(9 : UInt8), (0 : UInt8)])]⟩

/-- The vault with the six after a second context is derived. -/
def vaultOfTwo : Vault := ⟨vaultOfSix.heaps ++ [.empty]⟩

/-- The second context reads the blob, unless what has no name is to be encrypted. -/
theorem unwrapValues_wrapValues_sixAndBytes :
    ∃ blob, Runs (wrapValues .bitwise sixAndBytes) vaultOfSix (.ok blob) vaultOfSix ∧
      (∃ read w', Runs (unwrapValues .bitwise ⟨1, .bitwise 8⟩ blob.toBytes .any) vaultOfTwo
          (.ok read) w' ∧
        AlikeEntries Gates.contents vaultOfSix w' sixAndBytes.entries read.entries) ∧
      ∃ w', Runs (unwrapValues .bitwise ⟨1, .bitwise 8⟩ blob.toBytes
        (.outputs ⟨1, ∅, ⟨[("", .cipher)]⟩⟩)) vaultOfTwo
          (.error (.wrongTag "" .cipher .raw)) w' := by
  have hfits : ∀ e ∈ sixAndBytes.entries,
      e.2.Fits Gates.contents ⟨0, .bitwise 8⟩ vaultOfSix := by
    simp only [sixAndBytes, List.forall_mem_cons]
    refine ⟨.cipher rfl ⟨rfl, ?_⟩, .plain ?_, .raw _, by simp⟩
    · change 6 < 2 ^ 8
      decide
    · change 255 < 2 ^ 8
      decide
  have hparams : (Context.mk 1 (.bitwise 8)).params = (Context.mk 0 (.bitwise 8)).params := rfl
  have hissued : vaultOfSix.Issued := by
    unfold Vault.Issued
    decide
  have hhosted : Context.Hosted ⟨1, .bitwise 8⟩ vaultOfTwo :=
    Context.hosted_of_derive hissued (p := .bitwise 8) rfl [] .refl
  obtain ⟨blob, hwrite, read, w', hread, -, halike, hexpected⟩ :=
    unwrapValues_wrapValues .bitwise (by decide) hfits hparams hhosted
  refine ⟨blob, hwrite, ⟨read, w', hread, halike⟩, ?_⟩
  refine (hexpected _).2 (sixAndBytes.entries.take 2) "" (.raw [(9 : UInt8), (0 : UInt8)]) []
    .cipher rfl ?_ rfl (by decide)
  simp [sixAndBytes, ExpectedClasses.Allows, ExpectedClasses.find?, OrderedMap.find?,
    OrderedMap.lookup]

end CipherGraph

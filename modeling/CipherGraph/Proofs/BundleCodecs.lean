import CipherGraph.Blob.Bundle
import CipherGraph.Proofs.JsonCodecs

/-! # Parts of a bundle read back

Every part of a key bundle travels once its numbers fit the words they are kept in. Reals are left
out, since their digits are the platform's.
-/

namespace CipherGraph

open Json

theorem travels_name {α : Type} [ToJson α] [OfJson α] {a : α} {tag : String}
    {ofTag? : String → Option α} (hwrite : toJson a = ofString tag)
    (hread : ∀ j : Json, ofJson? j = do
      match ← j.choice? with
      | (tag, .null) => ofTag? tag
      | _ => none)
    (h : ofTag? tag = some a) : Travels a where
  written := hwrite ▸ written_ofString tag
  reads := by
    rw [hwrite, hread, choice?_ofString]
    exact h

theorem SchemeKind.travels (k : SchemeKind) : Travels k :=
  travels_name rfl (fun _ => rfl) (by cases k <;> rfl)

theorem ValueClass.travels (c : ValueClass) : Travels c :=
  travels_name rfl (fun _ => rfl) (by cases c <;> rfl)

theorem BlobKind.travels (k : BlobKind) : Travels k :=
  travels_name rfl (fun _ => rfl) (by cases k <;> rfl)

theorem Arithmetic.travels (op : Arithmetic) : Travels op :=
  travels_name rfl (fun _ => rfl) (by cases op <;> rfl)

theorem Aggregate.travels (op : Aggregate) : Travels op :=
  travels_name rfl (fun _ => rfl) (by cases op <;> rfl)

def Constant.Exact : Constant → Prop
  | .reals _ => False
  | .integers _ | .byte _ => True

theorem Constant.Exact.travels {c : Constant} (h : c.Exact) : Travels c := by
  cases c with
  | reals => exact h.elim
  | integers values =>
    have hvalues := travels_list fun v (_ : v ∈ values) => travels_signed v
    refine ⟨written_ofChoice hvalues.written, ?_⟩
    change (content? (ofChoice "Int" (toJson values))).bind _ = _
    rw [content?_ofChoice]
    simp [hvalues.reads]
  | byte value =>
    have hvalue := travels_byte value
    refine ⟨written_ofChoice hvalue.written, ?_⟩
    change (content? (ofChoice "Byte" (toJson value))).bind _ = _
    rw [content?_ofChoice]
    simp [hvalue.reads]

/-- Steps, scales and levels are words of 32 bits, and constants are not reals. -/
def Operation.Fits : Operation → Prop
  | .constant value => value.Exact
  | .rotateLeft steps | .rotateRight steps => steps < UInt32.size
  | .encode scaleBits level => scaleBits < UInt32.size ∧ level < UInt32.size
  | .input .. | .output _ | .arithmetic _ | .negate | .aggregate _ => True

theorem written_nat (n : Nat) : (toJson n).Written := written_ofNat n

theorem Operation.word?_ofNat {n : Nat} (h : n < UInt32.size) :
    Operation.word? (some (Json.ofNat n)) = some n := below?_ofNat h

theorem Operation.travels_choice {op : Operation} {tag : String} {fields : List (String × Json)}
    (hwrite : op.write = ofChoice tag (ofRecord fields)) (hfields : ∀ f ∈ fields, f.2.Written)
    (hread : Operation.readContent? tag (ofRecord fields) = some op) : Travels op where
  written := by
    change op.write.Written
    exact hwrite ▸ written_ofChoice (written_ofRecord hfields)
  reads := by
    change Operation.read? op.write = some op
    rw [hwrite, Operation.read?, choice?_ofChoice, content?_ofChoice]
    simpa [ofRecord] using hread

theorem Operation.Fits.travels {op : Operation} (h : op.Fits) : Travels op := by
  cases op with
  | input name type =>
    refine Operation.travels_choice rfl
      (by simp [(travels_string name).written, type.travels.written]) ?_
    simp [Operation.readContent?, fields?_ofRecord, OrderedMap.lookup, required?,
      (travels_string name).reads, type.travels.reads]
  | output name =>
    refine Operation.travels_choice rfl (by simp [(travels_string name).written]) ?_
    simp [Operation.readContent?, fields?_ofRecord, OrderedMap.lookup, required?,
      (travels_string name).reads]
  | constant value =>
    have hvalue := Constant.Exact.travels h
    refine Operation.travels_choice rfl (by simp [hvalue.written]) ?_
    simp [Operation.readContent?, fields?_ofRecord, OrderedMap.lookup, required?, hvalue.reads]
  | arithmetic op =>
    refine Operation.travels_choice rfl (by simp [op.travels.written]) ?_
    simp [Operation.readContent?, fields?_ofRecord, OrderedMap.lookup, required?, op.travels.reads]
  | negate =>
    refine ⟨written_ofString _, ?_⟩
    change Operation.read? (ofString "Negate") = _
    rw [Operation.read?, choice?_ofString]
    rfl
  | rotateLeft steps =>
    refine Operation.travels_choice rfl (by simp [written_nat]) ?_
    simp [Operation.readContent?, fields?_ofRecord, OrderedMap.lookup, toJson,
      Operation.word?_ofNat h]
  | rotateRight steps =>
    refine Operation.travels_choice rfl (by simp [written_nat]) ?_
    simp [Operation.readContent?, fields?_ofRecord, OrderedMap.lookup, toJson,
      Operation.word?_ofNat h]
  | encode scaleBits level =>
    refine Operation.travels_choice rfl (by simp [written_nat]) ?_
    simp [Operation.readContent?, fields?_ofRecord, OrderedMap.lookup, toJson,
      Operation.word?_ofNat h.1, Operation.word?_ofNat h.2]
  | aggregate op =>
    refine Operation.travels_choice rfl (by simp [op.travels.written]) ?_
    simp [Operation.readContent?, fields?_ofRecord, OrderedMap.lookup, required?, op.travels.reads]

theorem idOf?_ofNat {id : NodeId} (h : id < NodeId.bound) : idOf? (Json.ofNat id) = some id :=
  below?_ofNat h

theorem Node.travels {n : Node} (hid : n.id < NodeId.bound) (hop : n.op.Fits) : Travels n := by
  refine travels_record rfl (fun _ => rfl) rfl (by simp)
    (by simp [written_ofNat, hop.travels.written]) ?_
  simp [required?, idOf?_ofNat hid, hop.travels.reads]

/-- Ids are words of 64 bits, and a node has fewer than `2 ^ 16` operands. -/
structure GraphRecord.Fits (r : GraphRecord) : Prop where
  width : r.width < UInt32.size
  next : r.next < NodeId.bound
  nodes : ∀ n ∈ r.nodes, n.id < NodeId.bound ∧ n.op.Fits
  operands : ∀ t ∈ r.operands,
    t.1 < NodeId.bound ∧ t.2.1 < UInt16.size ∧ t.2.2 < NodeId.bound

def tripleJson (t : NodeId × Nat × NodeId) : Json :=
  .array [Json.ofNat t.1, Json.ofNat t.2.1, Json.ofNat t.2.2]

theorem GraphRecord.Fits.travels {r : GraphRecord} (h : r.Fits) : Travels r := by
  have hname := travels_string r.name
  have hnodes := travels_list fun n hn => Node.travels (h.nodes n hn).1 (h.nodes n hn).2
  have htriples : (r.operands.map tripleJson).mapM tripleOf? = some r.operands :=
    mapM_map_eq_some fun t ht => by
      obtain ⟨hconsumer, hposition, hoperand⟩ := h.operands t ht
      simp [tripleJson, tripleOf?, idOf?_ofNat hconsumer, below?_ofNat hposition,
        idOf?_ofNat hoperand]
  have hwritten : (Json.array (r.operands.map tripleJson)).Written :=
    written_array fun t _ => by simp [tripleJson, Written, WrittenItems, written_ofNat]
  have hwidth : below? UInt32.size (toJson r.width) = some r.width := below?_ofNat h.width
  have hwrite : toJson r = ofRecord
      [("name", toJson r.name), ("vec_width", toJson r.width), ("next_index", Json.ofNat r.next),
        ("nodes", toJson r.nodes), ("operands", .array (r.operands.map tripleJson))] := rfl
  refine travels_record hwrite (fun _ => rfl) rfl (by simp)
    (by simp [hname.written, written_nat, written_ofNat, hnodes.written, hwritten]) ?_
  simp [required?, hname.reads, hwidth, idOf?_ofNat h.next, hnodes.reads, array?, htriples]

/-- The record of a group holds the records of its members. -/
structure GroupRecord.Fits (r : GroupRecord) : Prop where
  next : r.next < NodeId.bound
  members : ∀ member ∈ r.members, member.Fits

theorem GroupRecord.Fits.travels {r : GroupRecord} (h : r.Fits) : Travels r := by
  have hname := travels_string r.name
  have hmembers := travels_list fun member hm => (h.members member hm).travels
  refine travels_record rfl (fun _ => rfl) rfl (by simp)
    (by simp [hname.written, written_ofNat, hmembers.written]) ?_
  simp [required?, hname.reads, idOf?_ofNat h.next, hmembers.reads]

structure InputEncoding.Fits (e : InputEncoding) : Prop where
  scaleBits : e.scaleBits < UInt32.size
  level : e.level < UInt32.size

theorem InputEncoding.Fits.travels {e : InputEncoding} (h : e.Fits) : Travels e := by
  have hscale : below? UInt32.size (toJson e.scaleBits) = some e.scaleBits :=
    below?_ofNat h.scaleBits
  have hlevel : below? UInt32.size (toJson e.level) = some e.level := below?_ofNat h.level
  refine travels_record rfl (fun _ => rfl) rfl (by simp)
    (by simp [e.type.travels.written, written_nat]) ?_
  simp [required?, e.type.travels.reads, hscale, hlevel]

structure Signature.Fits (s : Signature) : Prop where
  width : s.width < UInt32.size
  inputs : ∀ e ∈ s.inputs.entries, e.2.Fits
  inputKeys : s.inputs.keys.Nodup
  outputKeys : s.outputs.keys.Nodup

theorem Signature.Fits.travels {s : Signature} (h : s.Fits) : Travels s := by
  have hinputs := travels_table h.inputKeys fun e he => (h.inputs e he).travels
  have houtputs := travels_table h.outputKeys fun e _ => e.2.travels
  have hwidth : below? UInt32.size (toJson s.width) = some s.width := below?_ofNat h.width
  refine travels_record rfl (fun _ => rfl) rfl (by simp)
    (by simp [written_nat, hinputs.written, houtputs.written]) ?_
  simp [required?, hwidth, hinputs.reads, houtputs.reads]

theorem Ascending.ofList_of_pairwise {α : Type} [LT α] [DecidableLT α] [DecidableEq α]
    (hasymm : ∀ a b : α, a < b → ¬b < a) {l : List α} (h : l.Pairwise (· < ·)) :
    Ascending.ofList l = l := by
  have hinsert (s : List α) (a : α) (ha : ∀ b ∈ s, b < a) : Ascending.insert a s = s ++ [a] := by
    induction s with
    | nil => rfl
    | cons b s ih =>
      obtain ⟨hb, hs⟩ := List.forall_mem_cons.mp ha
      have hne : a ≠ b := by
        rintro rfl
        exact hasymm a a hb hb
      rw [Ascending.insert, if_neg (hasymm b a hb), if_neg hne, ih hs, List.cons_append]
  have hfold (s : List α) (hs : (s ++ l).Pairwise (· < ·)) :
      l.foldl (fun s a => Ascending.insert a s) s = s ++ l := by
    induction l generalizing s with
    | nil => simp
    | cons a l ih =>
      have ha : ∀ b ∈ s, b < a := fun b hb =>
        (List.pairwise_append.mp hs).2.2 b hb a List.mem_cons_self
      rw [List.foldl_cons, hinsert s a ha, ih (List.pairwise_cons.mp h).2 _ (by simpa using hs)]
      simp
  exact hfold [] h

/-- Steps are words of 32 bits with a sign, in ascending order. -/
structure KeyRequirements.Fits (r : KeyRequirements) : Prop where
  ascending : r.rotationSteps.Pairwise (· < ·)
  steps : ∀ v ∈ r.rotationSteps, Int32.minValue.toInt ≤ v ∧ v ≤ Int32.maxValue.toInt
  depth : r.depth < UInt32.size
  width : r.width < UInt32.size

theorem KeyRequirements.Fits.travels {r : KeyRequirements} (h : r.Fits) : Travels r := by
  have hsteps : (r.rotationSteps.map Json.ofInt).mapM stepFrom? = some r.rotationSteps :=
    mapM_map_eq_some fun v hv => by
      simp only [stepFrom?, integer?_ofInt, Option.bind_eq_bind, Option.bind_some]
      exact if_pos (h.steps v hv)
  have hwritten : (toJson r.rotationSteps).Written := written_array fun v _ => written_ofInt v
  have harray : array? (toJson r.rotationSteps) = some (r.rotationSteps.map Json.ofInt) := rfl
  have hdepth : below? UInt32.size (toJson r.depth) = some r.depth := below?_ofNat h.depth
  have hwidth : below? UInt32.size (toJson r.width) = some r.width := below?_ofNat h.width
  have hbool := travels_bool r.relinearize
  refine travels_record rfl (fun _ => rfl) rfl (by simp)
    (by simp [written_nat, hwritten, hbool.written]) ?_
  simp [required?, harray, hsteps, hdepth, hwidth, hbool.reads,
    Ascending.ofList_of_pairwise (fun _ _ => Int.lt_asymm) h.ascending]

theorem Blake3.length_hashWith (key : List UInt32) (flags : UInt32) (input : Bytes) :
    (Blake3.hashWith key flags input).length = 32 := by
  have hroot (nodes : List Blake3.Node) (hsome : nodes ≠ []) :
      (Blake3.root key flags nodes).length = 8 := by
    induction nodes using Blake3.root.induct key flags with
    | case1 => exact absurd rfl hsome
    | case2 node => simp [Blake3.root, Blake3.Node.compress]
    | case3 a b rest ih =>
      rw [Blake3.root]
      exact ih (by simp [Blake3.joinPairs])
  have hchunks : Blake3.chunks key flags input 0 ≠ [] := by
    rw [Blake3.chunks]
    split <;> simp
  have hbytes (words : List UInt32) : (Blake3.bytesOf words).length = words.length * 4 := by
    simp [Blake3.bytesOf, List.length_flatMap]
  rw [Blake3.hashWith, hbytes, hroot _ hchunks]

theorem SecretKey.length_material (k : SecretKey) : k.material.length = 32 :=
  Blake3.length_hashWith ..

theorem seedOf?_toJson {b : Bytes} (h : b.length = 32) : seedOf? (toJson b) = some b := by
  have hbytes : (b.map toJson).mapM ofJson? = some b :=
    mapM_map_eq_some fun x _ => (travels_byte x).reads
  change (do
    let bytes : Bytes ← (b.map toJson).mapM ofJson?
    if bytes.length = 32 then some bytes else none) = _
  rw [hbytes]
  exact if_pos h

theorem written_bytes (b : Bytes) : (toJson b).Written :=
  (travels_list fun x (_ : x ∈ b) => travels_byte x).written

theorem SecretKey.travels {k : SecretKey} (h : k.seed.length = 32) : Travels k := by
  refine travels_record rfl (fun _ => rfl) rfl (by simp) (by simp [written_bytes]) ?_
  simp [seedOf?_toJson h]

theorem PublicKey.travels {k : PublicKey} (h : k.material.length = 32) : Travels k := by
  have hid := travels_word k.keyId
  refine travels_record rfl (fun _ => rfl) rfl (by simp) (by simp [written_bytes, hid.written]) ?_
  simp [required?, hid.reads, seedOf?_toJson h]

/-- Galois elements are words of 64 bits in ascending order. -/
structure EvaluationKeys.Fits (k : EvaluationKeys) : Prop where
  ascending : k.galoisElements.Pairwise (· < ·)
  elements : ∀ n ∈ k.galoisElements, n < UInt64.size

theorem EvaluationKeys.Fits.travels {k : EvaluationKeys} (h : k.Fits) : Travels k := by
  have hid := travels_word k.keyId
  have hbool := travels_bool k.relin
  have helements : (k.galoisElements.map Json.ofNat).mapM (Json.below? UInt64.size) =
      some k.galoisElements :=
    mapM_map_eq_some fun n hn => below?_ofNat (h.elements n hn)
  have hwritten : (toJson k.galoisElements).Written := written_array fun n _ => written_ofNat n
  have harray : array? (toJson k.galoisElements) = some (k.galoisElements.map Json.ofNat) := rfl
  refine travels_record rfl (fun _ => rfl) rfl (by simp)
    (by simp [hwritten, hid.written, hbool.written]) ?_
  simp [required?, harray, helements, hid.reads, hbool.reads,
    Ascending.ofList_of_pairwise (fun _ _ => Nat.lt_asymm) h.ascending]

structure Parameters.Fits (p : Parameters) : Prop where
  chain : ∀ bits ∈ p.chain, bits < UInt32.size
  bitWidth : p.bitWidth < UInt8.size

theorem Parameters.Fits.travels {p : Parameters} (h : p.Fits) : Travels p := by
  have hscheme := p.scheme.travels
  have hdegree := travels_word p.degree
  have hmodulus := travels_word p.plainModulus
  have hnoise := travels_bool p.noise
  have hchain : (p.chain.map Json.ofNat).mapM (Json.below? UInt32.size) = some p.chain :=
    mapM_map_eq_some fun n hn => below?_ofNat (h.chain n hn)
  have hwritten : (toJson p.chain).Written := written_array fun n _ => written_ofNat n
  have harray : array? (toJson p.chain) = some (p.chain.map Json.ofNat) := rfl
  have hwidth : below? UInt8.size (toJson p.bitWidth) = some p.bitWidth := below?_ofNat h.bitWidth
  refine travels_record rfl (fun _ => rfl) rfl (by simp)
    (by simp [hwritten, hscheme.written, hdegree.written, hmodulus.written, written_nat,
      hnoise.written]) ?_
  simp [required?, harray, hchain, hwidth, hscheme.reads, hdegree.reads, hmodulus.reads,
    hnoise.reads]

theorem Grants.travels (f : Grants) : Travels f := by
  have hwritten (b : Bool) : (toJson b).Written := (travels_bool b).written
  exact travels_record rfl (fun _ => rfl) rfl (by simp) (by simp [hwritten]) rfl

def present (slots : List (String × Option Json)) : List (String × Json) :=
  slots.filterMap fun slot => slot.2.map (slot.1, ·)

theorem mem_present {slots : List (String × Option Json)} {f : String × Json} :
    f ∈ present slots ↔ (f.1, some f.2) ∈ slots := by
  obtain ⟨key, item⟩ := f
  simp [present]

theorem keys_present_sublist (slots : List (String × Option Json)) :
    ((present slots).map (·.1)).Sublist (slots.map (·.1)) := by
  induction slots with
  | nil => exact .slnil
  | cons slot slots ih =>
    obtain ⟨key, item | item⟩ := slot
    · exact ih.cons _
    · exact ih.cons_cons _

theorem fields?_present {slots : List (String × Option Json)} (h : (slots.map (·.1)).Nodup) :
    (ofRecord (present slots)).fields? (slots.map (·.1)) = some (slots.map (·.2)) := by
  have hkeys := h.sublist (keys_present_sublist slots)
  rw [fields?_ofRecord hkeys, List.map_map]
  refine congrArg some (List.map_congr_left fun ⟨key, item⟩ hslot => ?_)
  cases item with
  | some item => exact OrderedMap.lookup_of_mem hkeys (mem_present.mpr hslot)
  | none =>
    refine OrderedMap.lookup_eq_none.mpr fun hmem => ?_
    obtain ⟨⟨_, item⟩, hf, rfl⟩ := List.mem_map.mp hmem
    have heq := List.inj_on_of_nodup_map h hslot (mem_present.mp hf) rfl
    cases heq

theorem optionalField_eq {α : Type} [ToJson α] (name : String) (a : Option α) :
    optionalField name a = present [(name, a.map toJson)] := by
  cases a <;> rfl

theorem defaulted?_map {α : Type} [ToJson α] [OfJson α] {a : Option α} (h : ∀ x ∈ a, Travels x)
    (hrecord : ∀ x : α, ∃ fields, toJson x = ofRecord fields) :
    Json.defaulted? (α := Option α) none (a.map toJson) = some a := by
  cases a with
  | none => rfl
  | some x =>
    obtain ⟨fields, hx⟩ := hrecord x
    have hread := (h x rfl).reads
    rw [hx] at hread
    change (ofJson? (toJson x) : Option (Option α)) = _
    rw [hx]
    change (ofJson? (ofRecord fields)).map some = _
    rw [hread]
    rfl

/-- Every section that is there travels. -/
structure BundleSections.Fits (s : BundleSections) : Prop where
  params : s.params.Fits
  graph : ∀ r ∈ s.graph, r.Fits
  group : ∀ r ∈ s.group, r.Fits
  requirements : ∀ r ∈ s.requirements, r.Fits
  signature : ∀ sig ∈ s.signature, sig.Fits
  signatures : ∀ sigs ∈ s.signatures, sigs.keys.Nodup ∧ ∀ e ∈ sigs.entries, e.2.Fits
  publicKey : ∀ k ∈ s.publicKey, k.material.length = 32
  evaluationKeys : ∀ k ∈ s.evaluationKeys, k.Fits
  secretKey : ∀ k ∈ s.secretKey, k.seed.length = 32

/-- The sections with their names, in the order in which they are written. -/
def BundleSections.slots (s : BundleSections) : List (String × Option Json) :=
  [("flags", some (toJson s.grants)), ("params", some (toJson s.params)),
    ("graph", s.graph.map toJson), ("group", s.group.map toJson),
    ("requirements", s.requirements.map toJson), ("signature", s.signature.map toJson),
    ("signatures", s.signatures.map toJson), ("public_key", s.publicKey.map toJson),
    ("evaluation_keys", s.evaluationKeys.map toJson), ("secret_key", s.secretKey.map toJson)]

theorem BundleSections.toJson_eq (s : BundleSections) : toJson s = ofRecord (present s.slots) := by
  change ofRecord
    (present [("flags", some (toJson s.grants)), ("params", some (toJson s.params))] ++
    optionalField "graph" s.graph ++ optionalField "group" s.group ++
    optionalField "requirements" s.requirements ++ optionalField "signature" s.signature ++
    optionalField "signatures" s.signatures ++ optionalField "public_key" s.publicKey ++
    optionalField "evaluation_keys" s.evaluationKeys ++
    optionalField "secret_key" s.secretKey) = _
  simp only [optionalField_eq, present, ← List.filterMap_append, List.cons_append, List.nil_append,
    slots]

theorem BundleSections.Fits.travels {s : BundleSections} (h : s.Fits) : Travels s := by
  have hgrants := s.grants.travels
  have hparams := h.params.travels
  have hgraph : ∀ r ∈ s.graph, Travels r := fun r hr => (h.graph r hr).travels
  have hgroup : ∀ r ∈ s.group, Travels r := fun r hr => (h.group r hr).travels
  have hrequirements : ∀ r ∈ s.requirements, Travels r := fun r hr => (h.requirements r hr).travels
  have hsignature : ∀ r ∈ s.signature, Travels r := fun r hr => (h.signature r hr).travels
  have hsignatures : ∀ r ∈ s.signatures, Travels r := fun r hr =>
    travels_table (h.signatures r hr).1 fun e he => ((h.signatures r hr).2 e he).travels
  have hpublic : ∀ k ∈ s.publicKey, Travels k := fun k hk => PublicKey.travels (h.publicKey k hk)
  have hevaluation : ∀ k ∈ s.evaluationKeys, Travels k :=
    fun k hk => (h.evaluationKeys k hk).travels
  have hsecret : ∀ k ∈ s.secretKey, Travels k := fun k hk => SecretKey.travels (h.secretKey k hk)
  refine ⟨?_, ?_⟩
  · have hsome {α : Type} [ToJson α] [OfJson α] {a : Option α} (ha : ∀ x ∈ a, Travels x) :
        ∀ j, a.map toJson = some j → j.Written := by
      rintro j hj
      obtain ⟨x, hx, rfl⟩ := Option.map_eq_some_iff.mp hj
      exact (ha x hx).written
    have hslots : ∀ slot ∈ s.slots, ∀ j, slot.2 = some j → j.Written := by
      simp only [slots, List.forall_mem_cons]
      exact ⟨by rintro _ ⟨⟩; exact hgrants.written, by rintro _ ⟨⟩; exact hparams.written,
        hsome hgraph, hsome hgroup, hsome hrequirements, hsome hsignature, hsome hsignatures,
        hsome hpublic, hsome hevaluation, hsome hsecret, by simp⟩
    rw [s.toJson_eq]
    exact written_ofRecord fun f hf => hslots _ (mem_present.mp hf) _ rfl
  · rw [s.toJson_eq]
    change (Json.fields? (s.slots.map (·.1)) _).bind _ = _
    rw [fields?_present (by simp [slots])]
    have hread : Json.required? (some (toJson s.grants)) = some s.grants ∧
        Json.required? (some (toJson s.params)) = some s.params := ⟨hgrants.reads, hparams.reads⟩
    simp [slots, hread, defaulted?_map hgraph fun _ => ⟨_, rfl⟩,
      defaulted?_map hgroup fun _ => ⟨_, rfl⟩, defaulted?_map hrequirements fun _ => ⟨_, rfl⟩,
      defaulted?_map hsignature fun _ => ⟨_, rfl⟩, defaulted?_map hsignatures fun _ => ⟨_, rfl⟩,
      defaulted?_map hpublic fun _ => ⟨_, rfl⟩, defaulted?_map hevaluation fun _ => ⟨_, rfl⟩,
      defaulted?_map hsecret fun _ => ⟨_, rfl⟩]

theorem Envelope.travels {e : Envelope} (h : e.payload.IsText) : Travels e := by
  obtain ⟨payload, hpayload⟩ := h
  have hformat := travels_string e.format
  have hkind := e.kind.travels
  have hscheme := e.scheme.travels
  have hdigest := travels_string e.digest
  have hbytes : (Json.ofBytes e.payload).textBytes? = some e.payload := by
    change (do return Bytes.ofString (← textOf? (escape e.payload))) = _
    rw [← hpayload, textOf?_escape]
    rfl
  have hwritten : (Json.ofBytes e.payload).Written := ⟨payload, by rw [hpayload]⟩
  refine travels_record rfl (fun _ => rfl) rfl (by simp)
    (by simp [hformat.written, hkind.written, hscheme.written, hdigest.written, hwritten]) ?_
  simp [Json.required?, hformat.reads, hkind.reads, hscheme.reads, hdigest.reads, hbytes]

theorem Envelope.unwrap_wrap {α : Type} [ToJson α] [OfJson α] {a : α} (h : Travels a)
    (kind : BlobKind) (scheme : SchemeKind) :
    Envelope.unwrap (Envelope.wrap kind scheme a).toBytes kind scheme = .ok a := by
  have hread : (Json.read? (Envelope.wrap kind scheme a).toBytes : Option Envelope) =
      some (Envelope.wrap kind scheme a) :=
    (Envelope.travels (isText_render h.written)).read?
  have hpeek : Envelope.peek (Envelope.wrap kind scheme a).toBytes =
      .ok (Envelope.wrap kind scheme a) := by
    rw [Envelope.peek, hread]
    simp [Envelope.wrap, Envelope.ofPayload]
  have hpayload : (Json.read? (Envelope.wrap kind scheme a).payload : Option α) = some a := h.read?
  rw [Envelope.unwrap, hpeek]
  simp only [Envelope.wrap, Envelope.ofPayload] at hpayload ⊢
  simp [bind, Except.bind, hpayload, pure, Except.pure]

end CipherGraph

import CipherGraph.Proofs.JsonTrees
import CipherGraph.Proofs.Tables

/-! # Values read back

A value travels if its tree can be written and reads as the same value. Records, choices, lists and
tables travel if what they hold does.
-/

namespace CipherGraph

open Json

/-- The value survives being written and read. -/
structure Travels {α : Type} [ToJson α] [OfJson α] (a : α) : Prop where
  written : (toJson a).Written
  reads : ofJson? (toJson a) = some a

variable {α : Type} [ToJson α] [OfJson α]

theorem Travels.read? {a : α} (h : Travels a) : Json.read? (toJson a).render = some a := by
  rw [Json.read?, parse?_render h.written]
  exact h.reads

theorem mapM_eq_some {β γ : Type} {f : β → Option γ} {g : β → γ} {l : List β}
    (h : ∀ b ∈ l, f b = some (g b)) : l.mapM f = some (l.map g) := by
  induction l with
  | nil => rfl
  | cons b l ih =>
    obtain ⟨hb, hl⟩ := List.forall_mem_cons.mp h
    rw [List.mapM_cons, hb, ih hl]
    rfl

theorem mapM_map_eq_some {β γ : Type} {f : β → γ} {g : γ → Option β} {l : List β}
    (h : ∀ b ∈ l, g (f b) = some b) : (l.map f).mapM g = some l := by
  rw [List.mapM_map]
  exact (mapM_eq_some h).trans (congrArg some (List.map_id l))

namespace Json

variable {fields : List (String × Json)}

theorem written_ofRecord (h : ∀ f ∈ fields, f.2.Written) : (ofRecord fields).Written := by
  refine writtenEntries_iff.mpr fun e he => ?_
  obtain ⟨⟨key, item⟩, hf, rfl⟩ := List.mem_map.mp he
  exact ⟨⟨key, rfl⟩, h _ hf⟩

theorem entries?_ofRecord (fields : List (String × Json)) :
    (ofRecord fields).entries? = some fields := by
  refine mapM_map_eq_some fun ⟨key, item⟩ _ => ?_
  change (do return (← textOf? (escape (Bytes.ofString key)), item)) = _
  rw [textOf?_escape]
  rfl

theorem fields?_ofRecord (h : (fields.map (·.1)).Nodup) (names : List String) :
    (ofRecord fields).fields? names = some (names.map (OrderedMap.lookup · fields)) := by
  refine (congrArg (Option.bind · _) (entries?_ofRecord fields)).trans
    (mapM_eq_some fun name _ => ?_)
  induction fields with
  | nil => rfl
  | cons f fields ih =>
    obtain ⟨key, item⟩ := f
    obtain ⟨hkey, hfields⟩ := List.nodup_cons.mp h
    by_cases hname : key = name
    · subst hname
      have hnone : fields.filter (·.1 = key) = [] :=
        List.filter_eq_nil_iff.mpr fun f hf hf' =>
          hkey (List.mem_map.mpr ⟨f, hf, by simpa using hf'⟩)
      simp [OrderedMap.lookup, hnone]
    · simpa [OrderedMap.lookup, hname] using ih hfields

theorem fields?_names {names : List String} (hnames : fields.map (·.1) = names)
    (h : names.Nodup) : (ofRecord fields).fields? names = some (fields.map (some ·.2)) := by
  subst hnames
  rw [fields?_ofRecord h, List.map_map]
  exact congrArg some (List.map_congr_left fun f hf => OrderedMap.lookup_of_mem h hf)

theorem choice?_ofString (s : String) : (ofString s).choice? = some (s, .null) := by
  change (do return (← textOf? (escape (Bytes.ofString s)), Json.null)) = _
  rw [textOf?_escape]
  rfl

theorem content?_ofChoice (name : String) (content : Json) :
    (ofChoice name content).content? = some (name, content) := by
  change (do return (← textOf? (escape (Bytes.ofString name)), content)) = _
  rw [textOf?_escape]
  rfl

theorem choice?_ofChoice (name : String) (content : Json) :
    (ofChoice name content).choice? = some (name, content) := content?_ofChoice name content

theorem written_ofChoice {name : String} {content : Json} (h : content.Written) :
    (ofChoice name content).Written :=
  written_ofRecord (by simpa using h)

theorem written_ofString (s : String) : (ofString s).Written := ⟨s, rfl⟩

theorem written_array {β : Type} {f : β → Json} {l : List β} (h : ∀ b ∈ l, (f b).Written) :
    (Json.array (l.map f)).Written := by
  refine writtenItems_iff.mpr fun j hj => ?_
  obtain ⟨b, hb, rfl⟩ := List.mem_map.mp hj
  exact h b hb

theorem written_ofNat (n : Nat) : (ofNat n).Written := ⟨.ofNat n, rfl⟩

theorem written_ofInt (v : Int) : (ofInt v).Written := ⟨v, rfl⟩

theorem below?_ofNat {n bound : Nat} (h : n < bound) : (ofNat n).below? bound = some n := by
  rw [below?, natural?_ofNat]
  exact if_pos h

end Json

theorem travels_bool (b : Bool) : Travels b where
  written := trivial
  reads := rfl

theorem travels_string (s : String) : Travels s where
  written := written_ofString s
  reads := textOf?_escape s

theorem travels_byte (b : UInt8) : Travels b where
  written := written_ofNat _
  reads := by
    change (do return UInt8.ofNat (← (ofNat b.toNat).below? UInt8.size)) = some b
    rw [below?_ofNat b.toNat_lt]
    simp

theorem travels_word (w : UInt64) : Travels w where
  written := written_ofNat _
  reads := by
    change (do return UInt64.ofNat (← (ofNat w.toNat).below? UInt64.size)) = some w
    rw [below?_ofNat w.toNat_lt]
    simp

theorem travels_signed (v : Int64) : Travels v where
  written := written_ofInt _
  reads := by
    change (do
      let n ← (ofInt v.toInt).integer?
      if Int64.minValue.toInt ≤ n ∧ n ≤ Int64.maxValue.toInt then some (Int64.ofInt n)
      else none) = some v
    rw [integer?_ofInt]
    have hrange : Int64.minValue.toInt ≤ v.toInt ∧ v.toInt ≤ Int64.maxValue.toInt :=
      ⟨v.minValue_le_toInt, v.toInt_le⟩
    simp only [Option.bind_eq_bind, Option.bind_some, if_pos hrange, Int64.ofInt_toInt]

theorem travels_list {l : List α} (h : ∀ a ∈ l, Travels a) : Travels l where
  written := written_array fun a ha => (h a ha).written
  reads := mapM_map_eq_some fun a ha => (h a ha).reads

theorem travels_table {m : OrderedMap String α} (hkeys : m.keys.Nodup)
    (h : ∀ e ∈ m.entries, Travels e.2) : Travels m where
  written := written_ofRecord fun f hf => by
    obtain ⟨e, he, rfl⟩ := List.mem_map.mp hf
    exact (h e he).written
  reads := by
    change (do
      let entries ← (← (ofRecord _).entries?).mapM fun e => do return (e.1, ← ofJson? e.2)
      return OrderedMap.ofList entries) = some m
    rw [entries?_ofRecord]
    simp only [Option.bind_eq_bind, Option.bind_some]
    rw [mapM_map_eq_some fun e he => by rw [(h e he).reads]; rfl]
    exact congrArg some (congrArg OrderedMap.mk (OrderedMap.entries_ofList hkeys))

/-- A record travels if its fields do: `read` makes the value of all its fields. -/
theorem travels_record {a : α} {fields : List (String × Json)} {names : List String}
    {read : List (Option Json) → Option α} (hwrite : toJson a = ofRecord fields)
    (hread : ∀ j, ofJson? j = (Json.fields? names j).bind read)
    (hnames : fields.map (·.1) = names) (hnodup : names.Nodup)
    (hwritten : ∀ f ∈ fields, f.2.Written) (h : read (fields.map (some ·.2)) = some a) :
    Travels a where
  written := hwrite ▸ written_ofRecord hwritten
  reads := by
    rw [hwrite, hread, fields?_names hnames hnodup]
    exact h

end CipherGraph

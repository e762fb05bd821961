import CipherGraph.OrderedMap
import CipherGraph.Proofs.Computation
import Mathlib.Data.List.Nodup

/-! # Laws of tables

Look-up finds the entries of a table whose keys are distinct, and insertion keeps them distinct.
-/

namespace CipherGraph.OrderedMap

variable {κ α : Type} [DecidableEq κ] {m : OrderedMap κ α} {k k' : κ} {v : α}

omit [DecidableEq κ] in
@[simp] theorem entries_emptyCollection : (∅ : OrderedMap κ α).entries = [] := rfl

@[simp] theorem find?_emptyCollection : (∅ : OrderedMap κ α).find? k = none := rfl

theorem lookup_eq_none {l : List (κ × α)} : lookup k l = none ↔ k ∉ l.map (·.1) := by
  induction l with
  | nil => simp [lookup]
  | cons e l ih =>
    by_cases h : e.1 = k
    · simp [lookup, h]
    · simp only [lookup, h, ↓reduceIte, ih, List.map_cons, List.mem_cons, not_or]
      exact ⟨fun hl => ⟨fun hk => h hk.symm, hl⟩, fun hl => hl.2⟩

theorem mem_of_lookup {l : List (κ × α)} (h : lookup k l = some v) : (k, v) ∈ l := by
  induction l with
  | nil => cases h
  | cons e l ih =>
    by_cases hk : e.1 = k
    · simp only [lookup, hk, ↓reduceIte, Option.some.injEq] at h
      subst hk h
      exact List.mem_cons_self
    · simp only [lookup, hk, ↓reduceIte] at h
      exact List.mem_cons_of_mem _ (ih h)

theorem lookup_of_mem {l : List (κ × α)} (hl : (l.map (·.1)).Nodup) (h : (k, v) ∈ l) :
    lookup k l = some v := by
  induction l with
  | nil => cases h
  | cons e l ih =>
    obtain ⟨he, hl⟩ := List.nodup_cons.mp hl
    rcases List.mem_cons.mp h with rfl | h
    · simp [lookup]
    · have hne : e.1 ≠ k := by
        rintro rfl
        exact he (List.mem_map.mpr ⟨_, h, rfl⟩)
      simp [lookup, hne, ih hl h]

theorem find?_eq_none : m.find? k = none ↔ k ∉ m.keys := lookup_eq_none

theorem find?_eq_some (hm : m.keys.Nodup) : m.find? k = some v ↔ (k, v) ∈ m.entries :=
  ⟨mem_of_lookup, lookup_of_mem hm⟩

theorem contains_eq_false : m.contains k = false ↔ k ∉ m.keys := by
  rw [contains, Option.isSome_eq_false_iff, Option.isNone_iff_eq_none, find?_eq_none]

theorem contains_iff : m.contains k = true ↔ k ∈ m.keys := by
  rw [← Bool.not_eq_false, contains_eq_false, not_not]

theorem put_of_not_mem {l : List (κ × α)} (h : k ∉ l.map (·.1)) : put k v l = l ++ [(k, v)] := by
  induction l with
  | nil => rfl
  | cons e l ih =>
    simp only [List.map_cons, List.mem_cons, not_or] at h
    simp [put, Ne.symm h.1, ih h.2]

theorem keys_put_of_mem {l : List (κ × α)} (h : k ∈ l.map (·.1)) :
    (put k v l).map (·.1) = l.map (·.1) := by
  induction l with
  | nil => cases h
  | cons e l ih =>
    by_cases he : e.1 = k
    · simp [put, he]
    · have h := (List.mem_cons.mp h).resolve_left fun hk => he hk.symm
      simp [put, he, ih h]

theorem mem_put {l : List (κ × α)} {e : κ × α} (h : e ∈ put k v l) : e = (k, v) ∨ e ∈ l := by
  induction l with
  | nil => exact .inl (List.mem_singleton.mp h)
  | cons f l ih =>
    by_cases hf : f.1 = k
    · rw [put, if_pos hf] at h
      exact (List.mem_cons.mp h).imp_right (List.mem_cons_of_mem f)
    · rw [put, if_neg hf] at h
      rcases List.mem_cons.mp h with rfl | h
      · exact .inr List.mem_cons_self
      · exact (ih h).imp_right (List.mem_cons_of_mem f)

theorem mem_entries_insert {e : κ × α} (h : e ∈ (m.insert k v).entries) :
    e = (k, v) ∨ e ∈ m.entries := mem_put h

theorem entries_insert_of_not_mem (h : k ∉ m.keys) :
    (m.insert k v).entries = m.entries ++ [(k, v)] := put_of_not_mem h

theorem mem_keys_insert : k' ∈ (m.insert k v).keys ↔ k' = k ∨ k' ∈ m.keys := by
  rw [← contains_iff, ← contains_iff, contains, contains, find?_insert]
  split
  · next h => simp [h]
  · next h => simp [Ne.symm h]

theorem nodup_keys_insert (hm : m.keys.Nodup) : (m.insert k v).keys.Nodup := by
  by_cases h : k ∈ m.keys
  · rw [keys, insert, keys_put_of_mem h]
    exact hm
  · rw [keys, entries_insert_of_not_mem h, List.map_append]
    exact hm.append (List.nodup_singleton k) (by simpa [List.disjoint_singleton] using h)

theorem find?_insert_self : (m.insert k v).find? k = some v := by simp [find?_insert]

theorem find?_insert_of_ne (h : k ≠ k') : (m.insert k v).find? k' = m.find? k' := by
  simp [find?_insert, h]

theorem forall_find?_insert {P : κ → α → Prop} (hv : P k v)
    (h : ∀ k' w, m.find? k' = some w → P k' w) :
    ∀ k' w, (m.insert k v).find? k' = some w → P k' w := by
  intro k' w hw
  rw [find?_insert] at hw
  split at hw
  · next hk =>
    cases hw
    exact hk ▸ hv
  · exact h k' w hw

theorem find?_erase : (m.erase k).find? k' = if k' = k then none else m.find? k' := by
  unfold erase find?
  induction m.entries with
  | nil => simp [lookup]
  | cons e l ih =>
    by_cases he : e.1 = k
    · simp only [List.filter_cons, he, ne_eq, not_true_eq_false, decide_false, Bool.false_eq_true,
        ↓reduceIte, ih, lookup]
      split
      · rfl
      · next h => simp [Ne.symm h]
    · simp only [List.filter_cons, ne_eq, he, not_false_eq_true, decide_true, ↓reduceIte, lookup,
        ih]
      by_cases hk : e.1 = k'
      · have hne : ¬k' = k := fun h => he (hk.trans h)
        simp [hk, hne]
      · simp [hk]

theorem foldl_insert {l : List (κ × α)} (h : (m.keys ++ l.map (·.1)).Nodup) :
    (l.foldl (fun m (k, v) => m.insert k v) m).entries = m.entries ++ l := by
  induction l generalizing m with
  | nil => simp
  | cons e l ih =>
    obtain ⟨k, v⟩ := e
    have hk : k ∉ m.keys := by
      intro hk
      exact (List.nodup_append.mp h).2.2 k hk k (by simp) rfl
    have hkeys : (m.insert k v).keys = m.keys ++ [k] := by
      rw [keys, entries_insert_of_not_mem hk, List.map_append]
      rfl
    rw [List.foldl_cons, ih (by rw [hkeys]; simpa using h), entries_insert_of_not_mem hk]
    simp

theorem entries_ofList {l : List (κ × α)} (h : (l.map (·.1)).Nodup) : (ofList l).entries = l := by
  rw [ofList, foldl_insert (by simpa [empty, keys] using h)]
  rfl

theorem find?_foldl_insert_of_not_mem {β : Type} {f : κ × β → α} {l : List (κ × β)}
    (hk : k ∉ l.map (·.1)) : (l.foldl (fun m e => m.insert e.1 (f e)) m).find? k = m.find? k := by
  induction l generalizing m with
  | nil => rfl
  | cons e l ih =>
    rw [List.map_cons, List.mem_cons, not_or] at hk
    rw [List.foldl_cons, ih hk.2, find?_insert, if_neg (Ne.symm hk.1)]

theorem find?_foldl_insert {β : Type} {f : κ × β → α} {l : List (κ × β)}
    (hk : k ∈ l.map (·.1)) :
    ∃ b, (k, b) ∈ l ∧ (l.foldl (fun m e => m.insert e.1 (f e)) m).find? k = some (f (k, b)) := by
  induction l generalizing m with
  | nil => cases hk
  | cons e l ih =>
    by_cases hlater : k ∈ l.map (·.1)
    · obtain ⟨b, hb, hfind⟩ := ih (m := m.insert e.1 (f e)) hlater
      exact ⟨b, List.mem_cons_of_mem e hb, hfind⟩
    · rcases List.mem_cons.mp hk with rfl | hk
      · refine ⟨e.2, List.mem_cons_self, ?_⟩
        rw [List.foldl_cons, find?_foldl_insert_of_not_mem hlater, find?_insert, if_pos rfl]
      · exact absurd hk hlater

theorem mapM_entries {ε β : Type} {f : κ × α → Except ε (κ × β)} {P : α → β → Prop}
    (hf : ∀ k a e, f (k, a) = .ok e → e.1 = k ∧ P a e.2) {l : List (κ × α)} {l' : List (κ × β)}
    (h : l.mapM f = .ok l') :
    l'.map (·.1) = l.map (·.1) ∧ ∀ k b, lookup k l' = some b →
      ∃ a, lookup k l = some a ∧ P a b := by
  induction l generalizing l' with
  | nil =>
    cases h
    exact ⟨rfl, fun k b hb => nomatch hb⟩
  | cons e l ih =>
    obtain ⟨k, a⟩ := e
    rw [List.mapM_cons] at h
    obtain ⟨⟨k₁, b⟩, he, hrest⟩ := Except.bind_eq_ok.mp h
    obtain ⟨l₁, hl, hl'⟩ := Except.bind_eq_ok.mp hrest
    obtain ⟨rfl, hb⟩ := hf k a _ he
    cases hl'
    obtain ⟨hkeys, hfound⟩ := ih hl
    refine ⟨by simp [hkeys], ?_⟩
    intro k' b' hb'
    rw [lookup] at hb' ⊢
    split at hb'
    · next hk =>
      cases hb'
      rw [if_pos hk]
      exact ⟨a, rfl, hb⟩
    · next hk =>
      rw [if_neg hk]
      exact hfound k' b' hb'

theorem find?_ofList_of_mapM {ε β : Type} {f : κ × α → Except ε (κ × β)} {P : α → β → Prop}
    (hf : ∀ k a e, f (k, a) = .ok e → e.1 = k ∧ P a e.2) (hm : m.keys.Nodup)
    {l : List (κ × β)} (h : m.entries.mapM f = .ok l) {a : α} {b : β} (ha : m.find? k = some a)
    (hb : (ofList l).find? k = some b) : P a b := by
  obtain ⟨hkeys, hfound⟩ := mapM_entries hf h
  have hentries : (ofList l).entries = l := entries_ofList (hkeys ▸ hm)
  rw [find?, hentries] at hb
  obtain ⟨a', ha', hP⟩ := hfound k b hb
  cases ha.symm.trans ha'
  exact hP

end CipherGraph.OrderedMap

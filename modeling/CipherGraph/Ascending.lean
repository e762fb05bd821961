/-! # Ascending lists

Finite sets as lists in ascending order without repetition.
-/

namespace CipherGraph.Ascending

variable {α : Type} [LT α] [DecidableLT α] [DecidableEq α]

def insert (a : α) : List α → List α
  | [] => [a]
  | b :: rest =>
    if a < b then a :: b :: rest
    else if a = b then b :: rest
    else b :: insert a rest

def ofList (l : List α) : List α := l.foldl (fun s a => insert a s) []

def union (s t : List α) : List α := t.foldl (fun s a => insert a s) s

theorem mem_insert (a b : α) (l : List α) : b ∈ insert a l ↔ b = a ∨ b ∈ l := by
  induction l with
  | nil => simp [insert]
  | cons c l ih =>
    unfold insert
    split
    · simp
    · split
      · subst_vars; simp
      · simp only [List.mem_cons, ih]; constructor <;> rintro (h | h | h) <;> simp [h]

theorem mem_union (b : α) (s t : List α) : b ∈ union s t ↔ b ∈ s ∨ b ∈ t := by
  unfold union
  induction t generalizing s with
  | nil => simp
  | cons a t ih =>
    rw [List.foldl_cons, ih, mem_insert, List.mem_cons]
    exact ⟨fun h => by rcases h with (h | h) | h <;> simp [h],
      fun h => by rcases h with h | h | h <;> simp [h]⟩

end CipherGraph.Ascending

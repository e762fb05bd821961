import CipherGraph.Json.Codec

/-! # Tables in order of insertion

A key keeps the place it first took; inserting it again replaces its value there.
-/

namespace CipherGraph

structure OrderedMap (κ α : Type) where
  entries : List (κ × α)
deriving DecidableEq, Repr

namespace OrderedMap

variable {κ α β : Type} [DecidableEq κ]

def empty : OrderedMap κ α := ⟨[]⟩

instance : EmptyCollection (OrderedMap κ α) := ⟨empty⟩

instance : Inhabited (OrderedMap κ α) := ⟨empty⟩

def lookup (k : κ) : List (κ × α) → Option α
  | [] => none
  | (k', v) :: rest => if k' = k then some v else lookup k rest

def find? (m : OrderedMap κ α) (k : κ) : Option α := lookup k m.entries

def contains (m : OrderedMap κ α) (k : κ) : Bool := (m.find? k).isSome

def put (k : κ) (v : α) : List (κ × α) → List (κ × α)
  | [] => [(k, v)]
  | (k', v') :: rest => if k' = k then (k, v) :: rest else (k', v') :: put k v rest

def insert (m : OrderedMap κ α) (k : κ) (v : α) : OrderedMap κ α := ⟨put k v m.entries⟩

def erase (m : OrderedMap κ α) (k : κ) : OrderedMap κ α := ⟨m.entries.filter (·.1 ≠ k)⟩

omit [DecidableEq κ] in
def keys (m : OrderedMap κ α) : List κ := m.entries.map (·.1)

omit [DecidableEq κ] in
def values (m : OrderedMap κ α) : List α := m.entries.map (·.2)

omit [DecidableEq κ] in
def size (m : OrderedMap κ α) : Nat := m.entries.length

omit [DecidableEq κ] in
def map (f : α → β) (m : OrderedMap κ α) : OrderedMap κ β :=
  ⟨m.entries.map fun (k, v) => (k, f v)⟩

def ofList (entries : List (κ × α)) : OrderedMap κ α :=
  entries.foldl (fun m (k, v) => m.insert k v) empty

/-- Inserts every entry of another table in its order. -/
def union (m other : OrderedMap κ α) : OrderedMap κ α :=
  other.entries.foldl (fun m (k, v) => m.insert k v) m

theorem lookup_put (k k' : κ) (v : α) (l : List (κ × α)) :
    lookup k' (put k v l) = if k = k' then some v else lookup k' l := by
  induction l with
  | nil => simp [put, lookup]
  | cons e l ih =>
    obtain ⟨e, w⟩ := e
    by_cases h : e = k
    · subst h; simp only [put, lookup, ↓reduceIte]; split <;> rfl
    · by_cases h' : e = k'
      · subst h'; simp [put, lookup, h, Ne.symm h]
      · simp [put, lookup, h, h', ih]

theorem find?_insert (m : OrderedMap κ α) (k k' : κ) (v : α) :
    (m.insert k v).find? k' = if k = k' then some v else m.find? k' :=
  lookup_put k k' v m.entries

@[simp] theorem find?_empty (k : κ) : (empty : OrderedMap κ α).find? k = none := rfl

end OrderedMap

instance {α : Type} [ToJson α] : ToJson (OrderedMap String α) where
  toJson m := Json.ofRecord (m.entries.map fun (k, v) => (k, toJson v))

instance {α : Type} [OfJson α] : OfJson (OrderedMap String α) where
  ofJson? j := do
    let entries ← (← j.entries?).mapM fun (k, v) => do return (k, ← ofJson? v)
    return .ofList entries

end CipherGraph

/-! # Id spaces

Node ids come from 64-bit counters. Several graphs may draw from one counter, so a
graph holds only the name of its counter, and the counters themselves are one store.
-/

namespace CipherGraph

/-- A node's number, below `2 ^ 64`. -/
abbrev NodeId := Nat

/-- The number of ids; the counter returns to zero here. -/
def NodeId.bound : Nat := UInt64.size

/-- The id a counter turns to after handing out `id`. -/
def NodeId.next (id : NodeId) : NodeId := (id + 1) % NodeId.bound

/-- The name of a counter. -/
structure IdSpace where
  key : Nat
deriving DecidableEq, Repr

/-- The next id of every counter, by the counter's name. -/
structure IdCounters where
  next : List NodeId
deriving DecidableEq, Repr

namespace IdCounters

def empty : IdCounters := ⟨[]⟩

def peek (c : IdCounters) (s : IdSpace) : NodeId := c.next.getD s.key 0

def set (c : IdCounters) (s : IdSpace) (id : NodeId) : IdCounters := ⟨c.next.set s.key id⟩

/-- A new counter, named apart from all others. -/
def add (c : IdCounters) (start : NodeId) : IdSpace × IdCounters :=
  (⟨c.next.length⟩, ⟨c.next ++ [start]⟩)

def allocate (c : IdCounters) (s : IdSpace) : NodeId × IdCounters :=
  (c.peek s, c.set s (c.peek s).next)

/-- Moves a counter forward to at least `id`, never back. -/
def advance (c : IdCounters) (s : IdSpace) (id : NodeId) : IdCounters :=
  c.set s (max (c.peek s) id)

end IdCounters

/-- Computations that hand out ids; the counters move on even when they fail. -/
abbrev Allocating (ε α : Type) := ExceptT ε (StateM IdCounters) α

namespace Allocating

variable {ε : Type}

def fresh (s : IdSpace) : Allocating ε NodeId := do
  let (id, c) := (← get).allocate s
  set c
  return id

def advance (s : IdSpace) (id : NodeId) : Allocating ε Unit := modify (·.advance s id)

def openSpace (start : NodeId) : Allocating ε IdSpace := do
  let (s, c) := (← get).add start
  set c
  return s

end Allocating

end CipherGraph

import CipherGraph.Scheme.Basic

/-! # Values of a scheme

What flows through an execution, classified as the nodes of a graph are, and named values:
encrypted inputs or computed outputs.
-/

namespace CipherGraph

inductive Value (S : Scheme) where
  | cipher (value : S.Ciphertext)
  | plain (value : S.Plaintext)
  | raw (slots : List S.Slot)

namespace Value

variable {S : Scheme}

def type : Value S → ValueClass
  | .cipher _ => .cipher
  | .plain _ => .plain
  | .raw _ => .raw

def cells : Value S → List (Nat × Nat)
  | .cipher c => S.cells c
  | .plain _ | .raw _ => []

end Value

abbrev SchemeValuation (S : Scheme) := OrderedMap String (Value S)

/-- How names on both sides of a merge are treated. -/
inductive MergePolicy where
  | disjoint
  | replace
deriving DecidableEq, Repr

namespace SchemeValuation

variable {S : Scheme}

/-- Adds every entry of another valuation, or none if the policy forbids one of them. -/
def merge (v other : SchemeValuation S) (policy : MergePolicy) :
    Except ExecError (SchemeValuation S) :=
  match policy, other.keys.find? fun name => v.contains name with
  | .disjoint, some name => .error (.configuration (.suppliedTwice name))
  | _, _ => .ok (v.union other)

/-- The entries with these names; names without one are passed over. -/
def subset (v : SchemeValuation S) (names : List String) : SchemeValuation S :=
  .ofList (names.filterMap fun name => (v.find? name).map fun value => (name, value))

def cells (v : SchemeValuation S) : List (Nat × Nat) := v.values.flatMap Value.cells

end SchemeValuation

/-- Repeats a vector to fill `count` slots, which its length has to divide. -/
def fill {α : Type} (slots : List α) (count : Nat) : Except ExecError (List α) :=
  if slots.isEmpty || count % slots.length ≠ 0 then
    .error (.configuration (.vectorLength slots.length count))
  else .ok (List.replicate (count / slots.length) slots).flatten

def Native.alone {α : Type} (m : Native α) : Exec α := fun v =>
  match m.run.run v with
  | (.ok a, v) => (.ok a, v)
  | (.error e, v) => (.error e.alone, v)

def Native.atNode {α : Type} (node : NodeId) (m : Native α) : Exec α := fun v =>
  match m.run.run v with
  | (.ok a, v) => (.ok a, v)
  | (.error e, v) => (.error (e.atNode node), v)

/-- The result of a primitive that needs no heap, at the node it serves. -/
def Exec.ofEval {α : Type} (node : NodeId) : Except EvalError α → Exec α
  | .ok a => return a
  | .error e => throw (e.atNode node)

def Exec.ofGraph {α : Type} : Except GraphError α → Exec α
  | .ok a => return a
  | .error e => throw (.graph e)

end CipherGraph

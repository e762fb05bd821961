import CipherGraph.Parameters
import CipherGraph.Scheme.NativeHeap

/-! # Contexts

A context is what its parameters determine, together with the heap of native
ciphertexts that a gate-level one owns. Contexts are numbered as they are derived, and two
are the same context only if they have the same number.
-/

namespace CipherGraph

structure Context where
  number : Nat
  params : Parameters
deriving DecidableEq, Repr

namespace Context

def scheme (c : Context) : SchemeKind := c.params.scheme

def slotCount (c : Context) : Nat := c.params.slotCount

def rowSize (c : Context) : Nat := c.params.rowSize

def maxLevel (c : Context) : Nat := c.params.maxLevel

def hasHeap (c : Context) : Bool := c.scheme = .bitwise

/-- The Galois element of a signed rotation step: a power of five modulo twice the degree. Schemes
that rotate without keys have none. -/
def galoisElement? (c : Context) (step : Int) : Option Nat :=
  match c.scheme with
  | .ckks | .bfv => some (Nat.pow 5 (step.emod c.rowSize).toNat % (2 * c.params.degree.toNat))
  | .bitwise => none

end Context

/-- Computations over contexts and their heaps. -/
abbrev Exec (α : Type) := ExceptT ExecError (StateM Vault) α

namespace Exec

def derive (p : Parameters) : Exec Context := do
  match p.validate with
  | .error fault => throw (.configuration (.parameters fault))
  | .ok () =>
    let v ← get
    set (Vault.mk (v.heaps ++ [NativeHeap.empty]))
    return ⟨v.heaps.length, p⟩

end Exec

/-- Contexts shared by their parameters. -/
structure ContextCache where
  capacity : Nat
  entries : List (Parameters × Context)
deriving DecidableEq, Repr

namespace ContextCache

def defaultCapacity : Nat := 8

def create (capacity : Nat) : ContextCache := ⟨capacity, []⟩

def size (c : ContextCache) : Nat := c.entries.length

/-- Drops the contexts that nobody uses, except one for the parameters asked for. -/
def evict (c : ContextCache) (p : Parameters) (inUse : Context → Bool) : ContextCache :=
  { c with entries := c.entries.filter fun (key, context) => key = p || inUse context }

def find? (c : ContextCache) (p : Parameters) : Option Context :=
  (c.entries.find? (·.1 = p)).map (·.2)

/-- The context for some parameters, derived if there is none yet. A full cache of contexts in use
hands out a context without keeping it. The cache is evicted even when the derivation fails. -/
def getOrCreate (c : ContextCache) (p : Parameters) (inUse : Context → Bool) :
    StateM Vault (ContextCache × Except ExecError Context) := do
  let c := c.evict p inUse
  match c.find? p with
  | some context => return (c, .ok context)
  | none =>
    match ← (Exec.derive p).run with
    | .error e => return (c, .error e)
    | .ok context =>
      if c.size ≥ c.capacity then return (c, .ok context)
      else return ({ c with entries := c.entries ++ [(p, context)] }, .ok context)

end ContextCache

end CipherGraph
